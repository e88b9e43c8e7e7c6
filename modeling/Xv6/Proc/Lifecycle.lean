import Xv6.Proc.Table

/-!
# Processes - Life cycle

What holds of the process table in every state between two sections that run with
`ptable.lock` held: every process has a live parent, nobody sleeps in `wait` next to
a zombie of its own, and every process that exits is returned by one `wait`, that of
its parent.

Main results:

- Theorems {lit}`TableInv.calm`, {lit}`TableInv.alloc`, {lit}`TableInv.free`,
  {lit}`TableInv.start`, {lit}`TableInv.exit`: the kinds of steps keep the invariant.
- Theorem {lit}`TableInv.step`: so does every step.
- Theorem {lit}`process_lifecycle`: what holds in every reachable state.
-/

namespace Xv6.Proc

open Foundations

/-! ## The invariant -/

/-- States of a process that is past `EMBRYO` and has not exited. -/
def ProcState.awake : ProcState → Bool
  | .sleeping | .runnable | .running => true
  | _ => false

/-- States of a process that is past `EMBRYO`. -/
def ProcState.past : ProcState → Bool
  | .unused | .embryo => false
  | _ => true

/-- Program points outside of `fork` and of the making of an entry. -/
def Pc.calm {n : Nat} : Pc n → Bool
  | .run | .inWait => true
  | _ => false

namespace Slot

variable {n : Nat}

/-- A regular process that has not exited. -/
def Live (x : Slot n) : Prop :=
  x.isProcess = true ∧ x.state.awake = true

/-- A regular process past `EMBRYO`. -/
def Past (x : Slot n) : Prop :=
  x.isProcess = true ∧ x.state.past = true

theorem Live.past {x : Slot n} (h : x.Live) : x.Past := by
  refine ⟨h.1, ?_⟩
  have hawake := h.2
  cases hstate : x.state <;> rw [hstate] at hawake <;> first | rfl | cases hawake

end Slot

/-- Invariant of the table. -/
structure TableInv {n : Nat} (s : Table n) : Prop where
  parents : ∀ i, (s.slot i).Past → s.initproc ≠ some i →
    ∃ q, (s.slot i).parent = some q ∧ q ≠ i ∧ (s.slot q).Live
  root : ∀ i, (s.slot i).Past → ∃ r, s.initproc = some r ∧ (s.slot r).Live
  initproc : ∀ r, s.initproc = some r →
    (s.slot r).Live ∨ ((s.slot r).state = .embryo ∧ (s.slot r).pc = .first)
  first : ∀ c, (s.slot c).state = .embryo → (s.slot c).pc = .first → s.initproc = some c
  making : ∀ i c, (s.slot i).pc = .forking c ∨ (s.slot i).pc = .forked c →
    (s.slot i).Live ∧ (s.slot c).state = .embryo ∧ (s.slot c).pc = .childOf i ∧
      (s.slot c).isProcess = true
  forked : ∀ i c, (s.slot i).pc = .forked c → (s.slot c).parent = some i
  -- who sleeps in `wait` does so on its own entry, and has no zombie
  waiting : ∀ i, (s.slot i).pc = .inWait → (s.slot i).Live ∧ (s.slot i).state ≠ .running ∧
    ((s.slot i).state = .sleeping → (s.slot i).chan = some (.proc i) ∧
      ∀ c, (s.slot c).parent = some i → (s.slot c).state ≠ .zombie)

/-- Invariant of the history: a process that exited is still there, as a zombie, or was
returned by one `wait`. -/
structure History {n : Nat} (s : Table n) : Prop where
  births : ∀ i, (s.slot i).state ≠ .unused → (s.slot i).birth < s.births
  inj : ∀ i j, (s.slot i).state ≠ .unused → (s.slot j).state ≠ .unused →
    (s.slot i).birth = (s.slot j).birth → i = j
  exited : ∀ b ∈ s.exited, b < s.births
  zombies : ∀ i, (s.slot i).state = .zombie → (s.slot i).birth ∈ s.exited
  kept : ∀ b ∈ s.exited, b ∈ s.reaped.map Prod.snd ∨
    ∃ i, (s.slot i).state = .zombie ∧ (s.slot i).birth = b
  reaped : ∀ b ∈ s.reaped.map Prod.snd, b ∈ s.exited ∧
    ∀ i, (s.slot i).state ≠ .unused → (s.slot i).birth ≠ b
  once : (s.reaped.map Prod.snd).Nodup

theorem tableInit_inv (n : Nat) : TableInv (tableInit n) := by
  constructor <;> simp [tableInit, Slot.zero, Slot.Past, Slot.Live]

theorem tableInit_history (n : Nat) : History (tableInit n) := by
  constructor <;> simp [tableInit, Slot.zero]

namespace Table

variable {n : Nat} (s : Table n) (i : Fin n) (x : Slot n)

@[simp]
theorem set_self : (s.set i x).slot i = x :=
  Function.update_self ..

theorem set_of_ne {j : Fin n} (h : j ≠ i) : (s.set i x).slot j = s.slot j :=
  Function.update_of_ne h ..

/-- `reparent` changes only the parents. -/
theorem reparent_fields (c : Fin n) :
    ((s.reparent i).slot c).state = (s.slot c).state ∧
      ((s.reparent i).slot c).pc = (s.slot c).pc ∧
      ((s.reparent i).slot c).chan = (s.slot c).chan ∧
      ((s.reparent i).slot c).isProcess = (s.slot c).isProcess ∧
      ((s.reparent i).slot c).birth = (s.slot c).birth := by
  unfold reparent
  simp only
  split
  · exact ⟨rfl, rfl, rfl, rfl, rfl⟩
  · exact ⟨rfl, rfl, rfl, rfl, rfl⟩

theorem reparent_parent (c : Fin n) :
    ((s.reparent i).slot c).parent =
      if (s.slot c).parent = some i then s.initproc else (s.slot c).parent := by
  unfold reparent
  simp only
  split
  · rfl
  · rfl

/-- Who sleeps after `wakeup1` is as before. -/
theorem wakeup1_sleeping {chan : Chan n} (h : ((s.wakeup1 chan).slot i).state = .sleeping) :
    (s.wakeup1 chan).slot i = s.slot i := by
  by_cases hi : (s.slot i).state = .sleeping ∧ (s.slot i).chan = some chan
  · have hslot : (s.wakeup1 chan).slot i = { s.slot i with state := .runnable } := if_pos hi
    rw [hslot] at h
    cases h
  · exact if_neg hi

/-- `wakeup1` leaves those alone that do not sleep. -/
theorem wakeup1_of_ne {chan : Chan n} (h : (s.slot i).state ≠ .sleeping) :
    (s.wakeup1 chan).slot i = s.slot i :=
  if_neg fun hbad => h hbad.1

theorem hasZombie_eq_false (h : s.hasZombie i = false) (c : Fin n)
    (hc : (s.slot c).parent = some i) : (s.slot c).state ≠ .zombie := by
  intro hzombie
  have hall := List.any_eq_false.mp h c (List.mem_finRange c)
  simp [hc, hzombie] at hall

theorem find_some {test : Slot n → Bool} (h : s.find test = some i) :
    test (s.slot i) = true := by
  have hfound := List.find?_some h
  exact hfound

theorem find_none {test : Slot n → Bool} (h : s.find test = none) (i : Fin n) :
    test (s.slot i) = false := by
  have hall := List.find?_eq_none.mp h i (List.mem_finRange i)
  simpa using hall

end Table

/-! ## Steps that move processes between sleeping, runnable and running -/

/-- A step that changes no entry but for the program point and the state of live
processes, which stay live. -/
structure Calm {n : Nat} (s t : Table n) : Prop where
  initproc : t.initproc = s.initproc
  births : t.births = s.births
  exited : t.exited = s.exited
  reaped : t.reaped = s.reaped
  fields : ∀ i, (t.slot i).parent = (s.slot i).parent ∧
    (t.slot i).isProcess = (s.slot i).isProcess ∧ (t.slot i).birth = (s.slot i).birth
  state : ∀ i, (t.slot i).state = (s.slot i).state ∨
    (s.slot i).state.awake = true ∧ (t.slot i).state.awake = true
  pc : ∀ i, (t.slot i).pc = (s.slot i).pc ∨
    (s.slot i).Live ∧ (s.slot i).pc.calm = true ∧ (t.slot i).pc.calm = true
  waiting : ∀ i, (t.slot i).pc = .inWait → (t.slot i).state ≠ .running ∧
    ((t.slot i).state = .sleeping → (t.slot i).chan = some (.proc i) ∧
      ∀ c, (s.slot c).parent = some i → (s.slot c).state ≠ .zombie)

namespace Calm

variable {n : Nat} {s t : Table n} (h : Calm s t)
include h

/-- States that are not those of a live process stay. -/
theorem state_iff (i : Fin n) {k : ProcState} (hk : k.awake = false) :
    (t.slot i).state = k ↔ (s.slot i).state = k := by
  rcases h.state i with heq | ⟨hs, ht⟩
  · rw [heq]
  · constructor
    · intro hbad
      rw [hbad, hk] at ht
      cases ht
    · intro hbad
      rw [hbad, hk] at hs
      cases hs

theorem live_iff (i : Fin n) : (t.slot i).Live ↔ (s.slot i).Live := by
  unfold Slot.Live
  rw [(h.fields i).2.1]
  rcases h.state i with heq | ⟨hs, ht⟩
  · rw [heq]
  · rw [hs, ht]

theorem past_iff (i : Fin n) : (t.slot i).Past ↔ (s.slot i).Past := by
  unfold Slot.Past
  rw [(h.fields i).2.1]
  rcases h.state i with heq | ⟨hs, ht⟩
  · rw [heq]
  · have hs' : (s.slot i).state.past = true := by
      cases hk : (s.slot i).state <;> rw [hk] at hs <;> first | rfl | cases hs
    have ht' : (t.slot i).state.past = true := by
      cases hk : (t.slot i).state <;> rw [hk] at ht <;> first | rfl | cases ht
    rw [hs', ht']

/-- Program points outside of `wait` stay. -/
theorem pc_iff (i : Fin n) {k : Pc n} (hk : k.calm = false) :
    (t.slot i).pc = k ↔ (s.slot i).pc = k := by
  rcases h.pc i with heq | ⟨_, hs, ht⟩
  · rw [heq]
  · constructor
    · intro hbad
      rw [hbad, hk] at ht
      cases ht
    · intro hbad
      rw [hbad, hk] at hs
      cases hs

end Calm

section Steps

variable {n : Nat} {s t : Table n}

theorem TableInv.calm (h : TableInv s) (hc : Calm s t) : TableInv t := by
  constructor
  · intro i hpast hinit
    rw [hc.past_iff] at hpast
    rw [hc.initproc] at hinit
    rcases h.parents i hpast hinit with ⟨q, hq, hqi, hlive⟩
    exact ⟨q, by rw [(hc.fields i).1, hq], hqi, (hc.live_iff q).mpr hlive⟩
  · intro i hpast
    rcases h.root i ((hc.past_iff i).mp hpast) with ⟨r, hr, hlive⟩
    exact ⟨r, by rw [hc.initproc, hr], (hc.live_iff r).mpr hlive⟩
  · intro r hr
    rw [hc.initproc] at hr
    rcases h.initproc r hr with hlive | ⟨hstate, hpc⟩
    · exact Or.inl ((hc.live_iff r).mpr hlive)
    · exact Or.inr ⟨(hc.state_iff r rfl).mpr hstate, (hc.pc_iff r (k := .first) rfl).mpr hpc⟩
  · intro c hstate hpc
    rw [hc.initproc]
    exact h.first c ((hc.state_iff c rfl).mp hstate) ((hc.pc_iff c (k := .first) rfl).mp hpc)
  · intro i c hpc
    rw [hc.pc_iff i (k := .forking c) rfl, hc.pc_iff i (k := .forked c) rfl] at hpc
    rcases h.making i c hpc with ⟨hlive, hstate, hchild, hproc⟩
    exact ⟨(hc.live_iff i).mpr hlive, (hc.state_iff c rfl).mpr hstate,
      (hc.pc_iff c (k := .childOf i) rfl).mpr hchild, by rw [(hc.fields c).2.1, hproc]⟩
  · intro i c hpc
    rw [(hc.fields c).1]
    exact h.forked i c ((hc.pc_iff i (k := .forked c) rfl).mp hpc)
  · intro i hpc
    have hlive : (s.slot i).Live := by
      rcases hc.pc i with heq | ⟨hlive, _⟩
      · rw [heq] at hpc
        exact (h.waiting i hpc).1
      · exact hlive
    refine ⟨(hc.live_iff i).mpr hlive, (hc.waiting i hpc).1, ?_⟩
    intro hsleeping
    rcases (hc.waiting i hpc).2 hsleeping with ⟨hchan, hnone⟩
    refine ⟨hchan, ?_⟩
    intro c hparent hzombie
    rw [(hc.fields c).1] at hparent
    exact hnone c hparent ((hc.state_iff c rfl).mp hzombie)

/-- Steps that neither make nor remove a zombie, and give out no entry. -/
theorem History.mono (h : History s) (hbirths : t.births = s.births)
    (hexited : t.exited = s.exited) (hreaped : t.reaped = s.reaped)
    (hbirth : ∀ i, (t.slot i).birth = (s.slot i).birth)
    (hunused : ∀ i, (t.slot i).state ≠ .unused → (s.slot i).state ≠ .unused)
    (hzombie : ∀ i, (t.slot i).state = .zombie ↔ (s.slot i).state = .zombie) :
    History t := by
  constructor
  · intro i hi
    rw [hbirth, hbirths]
    exact h.births i (hunused i hi)
  · intro i j hi hj heq
    rw [hbirth, hbirth] at heq
    exact h.inj i j (hunused i hi) (hunused j hj) heq
  · rw [hexited, hbirths]
    exact h.exited
  · intro i hi
    rw [hbirth, hexited]
    exact h.zombies i ((hzombie i).mp hi)
  · intro b hb
    rw [hexited] at hb
    rw [hreaped]
    rcases h.kept b hb with hb | ⟨i, hi, hib⟩
    · exact Or.inl hb
    · exact Or.inr ⟨i, (hzombie i).mpr hi, by rw [hbirth, hib]⟩
  · intro b hb
    rw [hreaped] at hb
    rw [hexited]
    refine ⟨(h.reaped b hb).1, ?_⟩
    intro i hi
    rw [hbirth]
    exact (h.reaped b hb).2 i (hunused i hi)
  · rw [hreaped]
    exact h.once

theorem History.calm (h : History s) (hc : Calm s t) : History t := by
  refine h.mono hc.births hc.exited hc.reaped (fun i => (hc.fields i).2.2) ?_ ?_
  · intro i hi hbad
    exact hi ((hc.state_iff i rfl).mpr hbad)
  · intro i
    exact hc.state_iff i rfl

theorem Calm.refl (h : TableInv s) : Calm s s := by
  refine ⟨rfl, rfl, rfl, rfl, fun i => ⟨rfl, rfl, rfl⟩, fun i => Or.inl rfl, fun i => Or.inl rfl,
    ?_⟩
  intro i hi
  exact (h.waiting i hi).2

/-- `wakeup1` is calm. -/
theorem TableInv.calm_wakeup1 (h : TableInv s) (chan : Chan n) : Calm s (s.wakeup1 chan) := by
  have hslot : ∀ i, (s.wakeup1 chan).slot i = s.slot i ∨ (s.slot i).state = .sleeping ∧
      (s.wakeup1 chan).slot i = { s.slot i with state := .runnable } := by
    intro i
    by_cases hi : (s.slot i).state = .sleeping ∧ (s.slot i).chan = some chan
    · exact Or.inr ⟨hi.1, if_pos hi⟩
    · exact Or.inl (if_neg hi)
  refine ⟨rfl, rfl, rfl, rfl, ?_, ?_, ?_, ?_⟩
  · intro i
    rcases hslot i with heq | ⟨_, heq⟩
    · rw [heq]
      exact ⟨rfl, rfl, rfl⟩
    · rw [heq]
      exact ⟨rfl, rfl, rfl⟩
  · intro i
    rcases hslot i with heq | ⟨hs, heq⟩
    · rw [heq]
      exact Or.inl rfl
    · rw [heq, hs]
      exact Or.inr ⟨rfl, rfl⟩
  · intro i
    rcases hslot i with heq | ⟨_, heq⟩
    · rw [heq]
      exact Or.inl rfl
    · rw [heq]
      exact Or.inl rfl
  · intro i hi
    rcases hslot i with heq | ⟨_, heq⟩
    · rw [heq] at hi ⊢
      exact (h.waiting i hi).2
    · rw [heq]
      exact ⟨nofun, nofun⟩

theorem TableInv.calm_wakeupProc (h : TableInv s) (q : Option (Fin n)) :
    Calm s (s.wakeupProc q) := by
  cases q with
  | none => exact Calm.refl h
  | some q => exact h.calm_wakeup1 (.proc q)

/-- Who was woken does not sleep in `wait`. -/
theorem TableInv.woken (h : TableInv s) (q : Fin n) :
    ¬(((s.wakeup1 (.proc q)).slot q).state = .sleeping ∧
      ((s.wakeup1 (.proc q)).slot q).pc = .inWait) := by
  rintro ⟨hs, hpc⟩
  by_cases hq : (s.slot q).state = .sleeping ∧ (s.slot q).chan = some (.proc q)
  · have hslot : (s.wakeup1 (.proc q)).slot q = { s.slot q with state := .runnable } := if_pos hq
    rw [hslot] at hs
    cases hs
  · have hslot : (s.wakeup1 (.proc q)).slot q = s.slot q := if_neg hq
    rw [hslot] at hs hpc
    exact hq ⟨hs, ((h.waiting q hpc).2.2 hs).1⟩

/-- A calm step of one process. -/
theorem TableInv.calm_set (h : TableInv s) {i : Fin n} {x : Slot n}
    (hfields : x.parent = (s.slot i).parent ∧ x.isProcess = (s.slot i).isProcess ∧
      x.birth = (s.slot i).birth)
    (hstate : x.state = (s.slot i).state ∨
      (s.slot i).state.awake = true ∧ x.state.awake = true)
    (hpc : x.pc = (s.slot i).pc ∨
      (s.slot i).Live ∧ (s.slot i).pc.calm = true ∧ x.pc.calm = true)
    (hwait : x.pc = .inWait → x.state ≠ .running ∧ (x.state = .sleeping →
      x.chan = some (.proc i) ∧ ∀ c, (s.slot c).parent = some i → (s.slot c).state ≠ .zombie)) :
    Calm s (s.set i x) := by
  refine ⟨rfl, rfl, rfl, rfl, ?_, ?_, ?_, ?_⟩
  · intro j
    by_cases hj : j = i
    · subst hj
      rwa [Table.set_self]
    · rw [Table.set_of_ne _ _ _ hj]
      exact ⟨rfl, rfl, rfl⟩
  · intro j
    by_cases hj : j = i
    · subst hj
      rwa [Table.set_self]
    · rw [Table.set_of_ne _ _ _ hj]
      exact Or.inl rfl
  · intro j
    by_cases hj : j = i
    · subst hj
      rwa [Table.set_self]
    · rw [Table.set_of_ne _ _ _ hj]
      exact Or.inl rfl
  · intro j hj
    by_cases hji : j = i
    · subst hji
      rw [Table.set_self] at hj ⊢
      exact hwait hj
    · rw [Table.set_of_ne _ _ _ hji] at hj ⊢
      exact (h.waiting j hj).2

/-- `kill` changes at most the state of a sleeping process. -/
theorem TableInv.calm_kill (h : TableInv s) (pid : Int32) : Calm s (s.kill pid).2 := by
  unfold Table.kill
  cases hfind : s.find fun x => x.pid = pid with
  | none => exact Calm.refl h
  | some i =>
    refine h.calm_set ⟨rfl, rfl, rfl⟩ ?_ (Or.inl rfl) ?_
    · by_cases hs : (s.slot i).state = .sleeping
      · right
        simp [hs, ProcState.awake]
      · left
        simp [hs]
    · intro hpc
      rcases h.waiting i hpc with ⟨hlive, hrun, hsleep⟩
      by_cases hs : (s.slot i).state = .sleeping
      · simp [hs]
      · simp [hs, hrun]

/-! ## Steps on one entry -/

/-- When entry `c` may become `x`. -/
structure Replaces (s : Table n) (c : Fin n) (x : Slot n) : Prop where
  -- a process that dies is neither `init` nor the parent of anybody
  live : (s.slot c).Live → x.Live ∨ s.initproc ≠ some c ∧ ∀ i, (s.slot i).parent ≠ some c
  parents : x.Past → s.initproc ≠ some c →
    ∃ q, x.parent = some q ∧ q ≠ c ∧ (s.slot q).Live
  root : x.Past → ∃ r, s.initproc = some r ∧ ((s.slot r).Live ∨ r = c ∧ x.Live)
  initproc : s.initproc = some c → x.Live ∨ (x.state = .embryo ∧ x.pc = .first)
  first : x.state = .embryo → x.pc = .first → s.initproc = some c
  making : ∀ d, x.pc = .forking d ∨ x.pc = .forked d → x.Live ∧ d ≠ c ∧
    (s.slot d).state = .embryo ∧ (s.slot d).pc = .childOf c ∧ (s.slot d).isProcess = true
  forked : ∀ d, x.pc = .forked d → (s.slot d).parent = some c
  made : ∀ i, i ≠ c → (s.slot i).pc = .forking c ∨ (s.slot i).pc = .forked c →
    x.state = .embryo ∧ x.pc = .childOf i ∧ x.isProcess = true
  madeBy : ∀ i, i ≠ c → (s.slot i).pc = .forked c → x.parent = some i
  waiting : x.pc ≠ .inWait
  zombie : x.state = .zombie → (s.slot c).state = .zombie ∧ x.parent = (s.slot c).parent ∨
    ∀ q, x.parent = some q → ¬((s.slot q).state = .sleeping ∧ (s.slot q).pc = .inWait)

theorem TableInv.replace (h : TableInv s) {c : Fin n} {x : Slot n} (hr : Replaces s c x)
    (hslot : t.slot = Function.update s.slot c x) (hinit : t.initproc = s.initproc) :
    TableInv t := by
  have hself : t.slot c = x := by rw [hslot, Function.update_self]
  have hother : ∀ i, i ≠ c → t.slot i = s.slot i := by
    intro i hi
    rw [hslot, Function.update_of_ne hi]
  have hlive : ∀ i, (s.slot i).Live →
      (s.initproc = some i ∨ ∃ j, (s.slot j).parent = some i) → (t.slot i).Live := by
    intro i hi huse
    by_cases hic : i = c
    · subst hic
      rw [hself]
      rcases hr.live hi with hx | ⟨hnot, hnone⟩
      · exact hx
      · rcases huse with hbad | ⟨j, hj⟩
        · exact absurd hbad hnot
        · exact absurd hj (hnone j)
    · rwa [hother i hic]
  constructor
  · intro i hpast hi
    rw [hinit] at hi
    by_cases hic : i = c
    · subst hic
      rw [hself] at hpast ⊢
      rcases hr.parents hpast hi with ⟨q, hq, hqi, hq'⟩
      exact ⟨q, hq, hqi, by rwa [hother q hqi]⟩
    · rw [hother i hic] at hpast ⊢
      rcases h.parents i hpast hi with ⟨q, hq, hqi, hq'⟩
      exact ⟨q, hq, hqi, hlive q hq' (Or.inr ⟨i, hq⟩)⟩
  · intro i hpast
    rw [hinit]
    by_cases hic : i = c
    · subst hic
      rw [hself] at hpast
      rcases hr.root hpast with ⟨r, hr', hlive' | ⟨rfl, hx⟩⟩
      · exact ⟨r, hr', hlive r hlive' (Or.inl hr')⟩
      · exact ⟨r, hr', by rwa [hself]⟩
    · rw [hother i hic] at hpast
      rcases h.root i hpast with ⟨r, hr', hlive'⟩
      exact ⟨r, hr', hlive r hlive' (Or.inl hr')⟩
  · intro r hr'
    rw [hinit] at hr'
    by_cases hrc : r = c
    · subst hrc
      rw [hself]
      exact hr.initproc hr'
    · rw [hother r hrc]
      exact h.initproc r hr'
  · intro d hstate hpc
    rw [hinit]
    by_cases hdc : d = c
    · subst hdc
      rw [hself] at hstate hpc
      exact hr.first hstate hpc
    · rw [hother d hdc] at hstate hpc
      exact h.first d hstate hpc
  · intro i d hpc
    by_cases hic : i = c
    · subst hic
      rw [hself] at hpc ⊢
      rcases hr.making d hpc with ⟨hx, hdi, hrest⟩
      rw [hother d hdi]
      exact ⟨hx, hrest⟩
    · rw [hother i hic] at hpc
      have hold := h.making i d hpc
      refine ⟨by rw [hother i hic]; exact hold.1, ?_⟩
      by_cases hdc : d = c
      · subst hdc
        rw [hself]
        exact hr.made i hic hpc
      · rw [hother d hdc]
        exact hold.2
  · intro i d hpc
    by_cases hic : i = c
    · subst hic
      rw [hself] at hpc
      rw [hother d (hr.making d (Or.inr hpc)).2.1]
      exact hr.forked d hpc
    · rw [hother i hic] at hpc
      by_cases hdc : d = c
      · subst hdc
        rw [hself]
        exact hr.madeBy i hic hpc
      · rw [hother d hdc]
        exact h.forked i d hpc
  · intro i hpc
    have hic : i ≠ c := by
      rintro rfl
      rw [hself] at hpc
      exact hr.waiting hpc
    rw [hother i hic] at hpc ⊢
    rcases h.waiting i hpc with ⟨hlive', hrun, hsleep⟩
    refine ⟨hlive', hrun, ?_⟩
    intro hs
    refine ⟨(hsleep hs).1, ?_⟩
    intro d hd hzombie
    by_cases hdc : d = c
    · subst hdc
      rw [hself] at hd hzombie
      rcases hr.zombie hzombie with ⟨hold, hparent⟩ | hawake
      · rw [hparent] at hd
        exact (hsleep hs).2 d hd hold
      · exact hawake i hd ⟨hs, hpc⟩
    · rw [hother d hdc] at hd hzombie
      exact (hsleep hs).2 d hd hzombie

theorem Slot.not_live_of_state {x : Slot n} (h : x.state.awake = false) : ¬x.Live := by
  intro hlive
  rw [hlive.2] at h
  cases h

theorem Slot.not_past_of_state {x : Slot n} (h : x.state.past = false) : ¬x.Past := by
  intro hpast
  rw [hpast.2] at h
  cases h

/-- Nobody makes an entry that is not an `EMBRYO`. -/
theorem TableInv.not_made (h : TableInv s) {c : Fin n} (hc : (s.slot c).state ≠ .embryo)
    (i : Fin n) : ¬((s.slot i).pc = .forking c ∨ (s.slot i).pc = .forked c) := by
  intro hpc
  exact hc (h.making i c hpc).2.1

/-- A free entry is given out. -/
theorem TableInv.alloc (h : TableInv s) {c : Fin n} (hc : (s.slot c).state = .unused)
    {pc : Pc n} (hpc : pc = .kthread ∨ ∃ i, pc = .childOf i) : TableInv (s.alloc c pc) := by
  have hnot : (s.slot c).state.awake = false := by rw [hc]; rfl
  have hmade := h.not_made (c := c) (by rw [hc]; decide)
  have hquiet : pc ≠ .first ∧ pc ≠ .inWait ∧ ∀ d, ¬(pc = .forking d ∨ pc = .forked d) := by
    rcases hpc with rfl | ⟨i, rfl⟩
    · exact ⟨nofun, nofun, fun d => by simp⟩
    · exact ⟨nofun, nofun, fun d => by simp⟩
  refine h.replace (c := c) ⟨?_, ?_, ?_, ?_, ?_, ?_, ?_, ?_, ?_, hquiet.2.1, ?_⟩ rfl rfl
  · intro hlive
    exact absurd hlive (Slot.not_live_of_state hnot)
  · intro hpast
    exact absurd hpast (Slot.not_past_of_state rfl)
  · intro hpast
    exact absurd hpast (Slot.not_past_of_state rfl)
  · intro hinit
    rcases h.initproc c hinit with hlive | ⟨hembryo, _⟩
    · exact absurd hlive (Slot.not_live_of_state hnot)
    · rw [hc] at hembryo
      cases hembryo
  · intro _ hfirst
    exact absurd hfirst hquiet.1
  · intro d hd
    exact absurd hd (hquiet.2.2 d)
  · intro d hd
    exact absurd (Or.inr hd) (hquiet.2.2 d)
  · intro i _ hi
    exact absurd hi (hmade i)
  · intro i _ hi
    exact absurd (Or.inr hi) (hmade i)
  · intro hzombie
    cases hzombie

/-- An entry that no live process and no `fork` uses is freed. -/
theorem TableInv.free (h : TableInv s) {c : Fin n} (hlive : ¬(s.slot c).Live)
    (hinit : s.initproc ≠ some c)
    (hmade : ∀ i, ¬((s.slot i).pc = .forking c ∨ (s.slot i).pc = .forked c)) {x : Slot n}
    (hx : x.state = .unused) (hpc : x.pc = (s.slot c).pc)
    (hslot : t.slot = Function.update s.slot c x) (ht : t.initproc = s.initproc) :
    TableInv t := by
  have hpast : ¬x.Past := Slot.not_past_of_state (by rw [hx]; rfl)
  have hmaking : ∀ d, ¬((s.slot c).pc = .forking d ∨ (s.slot c).pc = .forked d) :=
    fun d hd => hlive (h.making c d hd).1
  refine h.replace (c := c) (x := x) ⟨fun hl => absurd hl hlive, fun hp => absurd hp hpast,
    fun hp => absurd hp hpast, fun hi => absurd hi hinit, ?_, ?_, ?_, ?_, ?_, ?_, ?_⟩ hslot ht
  · intro hembryo
    rw [hx] at hembryo
    cases hembryo
  · intro d hd
    rw [hpc] at hd
    exact absurd hd (hmaking d)
  · intro d hd
    rw [hpc] at hd
    exact absurd (Or.inr hd) (hmaking d)
  · intro i _ hi
    exact absurd hi (hmade i)
  · intro i _ hi
    exact absurd (Or.inr hi) (hmade i)
  · intro hwait
    rw [hpc] at hwait
    exact hlive (h.waiting c hwait).1
  · intro hzombie
    rw [hx] at hzombie
    cases hzombie

/-- An `EMBRYO` that no `fork` makes any more becomes `RUNNABLE`. -/
theorem TableInv.start (h : TableInv s) {c : Fin n} (hc : (s.slot c).state = .embryo)
    (hmade : ∀ i, ¬((s.slot i).pc = .forking c ∨ (s.slot i).pc = .forked c))
    {isProcess : Bool} (hfirst : s.initproc = some c → isProcess = true)
    (hparent : isProcess = true → s.initproc ≠ some c →
      ∃ q, (s.slot c).parent = some q ∧ q ≠ c ∧ (s.slot q).Live) :
    TableInv (s.start c isProcess) := by
  have hnot : (s.slot c).state.awake = false := by rw [hc]; rfl
  refine h.replace (c := c) ⟨?_, ?_, ?_, ?_, ?_, ?_, ?_, ?_, ?_, ?_, ?_⟩ rfl rfl
  · intro hlive
    exact absurd hlive (Slot.not_live_of_state hnot)
  · intro hpast hinit
    exact hparent hpast.1 hinit
  · intro hpast
    by_cases hinit : s.initproc = some c
    · exact ⟨c, hinit, Or.inr ⟨rfl, hpast.1, rfl⟩⟩
    · rcases hparent hpast.1 hinit with ⟨q, _, _, hq⟩
      rcases h.root q hq.past with ⟨r, hr, hlive⟩
      exact ⟨r, hr, Or.inl hlive⟩
  · intro hinit
    exact Or.inl ⟨hfirst hinit, rfl⟩
  · intro hembryo
    cases hembryo
  · intro d hd
    exact hd.elim nofun nofun
  · intro d hd
    cases hd
  · intro i _ hi
    exact absurd hi (hmade i)
  · intro i _ hi
    exact absurd (Or.inr hi) (hmade i)
  · intro hwait
    cases hwait
  · intro hzombie
    cases hzombie

/-- A live process goes on in `fork`, or leaves it. -/
theorem TableInv.goto (h : TableInv s) {i : Fin n} (hi : (s.slot i).Live) {pc : Pc n}
    (hfirst : pc ≠ .first) (hwait : pc ≠ .inWait)
    (hmaking : ∀ d, pc = .forking d ∨ pc = .forked d → d ≠ i ∧ (s.slot d).state = .embryo ∧
      (s.slot d).pc = .childOf i ∧ (s.slot d).isProcess = true)
    (hforked : ∀ d, pc = .forked d → (s.slot d).parent = some i) :
    TableInv (s.goto i pc) := by
  have hstate : (s.slot i).state ≠ .embryo := by
    intro hbad
    exact Slot.not_live_of_state (by rw [hbad]; rfl) hi
  have hmade := h.not_made hstate
  refine h.replace (c := i) ⟨?_, ?_, ?_, ?_, ?_, ?_, hforked, ?_, ?_, hwait, ?_⟩ rfl rfl
  · exact fun hlive => Or.inl hlive
  · exact fun hpast => h.parents i hpast
  · intro hpast
    rcases h.root i hpast with ⟨r, hr, hlive⟩
    exact ⟨r, hr, Or.inl hlive⟩
  · exact fun _ => Or.inl hi
  · exact fun _ hbad => absurd hbad hfirst
  · exact fun d hd => ⟨hi, hmaking d hd⟩
  · exact fun j _ hj => absurd hj (hmade j)
  · exact fun j _ hj => absurd (Or.inr hj) (hmade j)
  · exact fun hzombie => Or.inl ⟨hzombie, rfl⟩

/-! ## Exit -/

/-- The children of `i` go to `init`, which does not sleep in `wait` when there is a
zombie among them. -/
theorem TableInv.reparent (h : TableInv s) {i r : Fin n} (hr : s.initproc = some r)
    (hlive : (s.slot r).Live) (hi : (s.slot i).pc = .run)
    (hzombie : (s.slot r).state = .sleeping → (s.slot r).pc = .inWait →
      ∀ c, (s.slot c).parent = some i → (s.slot c).state ≠ .zombie) :
    TableInv (s.reparent i) := by
  have hfields := s.reparent_fields i
  have hparent := s.reparent_parent i
  simp only [hr] at hparent
  have hlive' : ∀ c, ((s.reparent i).slot c).Live ↔ (s.slot c).Live := by
    intro c
    unfold Slot.Live
    rw [(hfields c).1, (hfields c).2.2.2.1]
  have hpast' : ∀ c, ((s.reparent i).slot c).Past ↔ (s.slot c).Past := by
    intro c
    unfold Slot.Past
    rw [(hfields c).1, (hfields c).2.2.2.1]
  constructor
  · intro c hpast hinit
    rw [hparent]
    split
    · have hrc : r ≠ c := by
        rintro rfl
        exact hinit hr
      exact ⟨r, rfl, hrc, (hlive' r).mpr hlive⟩
    · rcases h.parents c ((hpast' c).mp hpast) hinit with ⟨q, hq, hqc, hq'⟩
      exact ⟨q, hq, hqc, (hlive' q).mpr hq'⟩
  · intro c hpast
    exact ⟨r, hr, (hlive' r).mpr hlive⟩
  · intro q hq
    rw [hlive', (hfields q).1, (hfields q).2.1]
    exact h.initproc q hq
  · intro c hstate hpc
    rw [(hfields c).1] at hstate
    rw [(hfields c).2.1] at hpc
    exact h.first c hstate hpc
  · intro j c hpc
    rw [(hfields j).2.1] at hpc
    rw [hlive', (hfields c).1, (hfields c).2.1, (hfields c).2.2.2.1]
    exact h.making j c hpc
  · intro j c hpc
    rw [(hfields j).2.1] at hpc
    have hc := h.forked j c hpc
    have hji : j ≠ i := by
      rintro rfl
      rw [hi] at hpc
      cases hpc
    rw [hparent, hc, if_neg (by simpa using hji)]
  · intro j hpc
    rw [(hfields j).2.1] at hpc
    rw [hlive', (hfields j).1, (hfields j).2.2.1]
    rcases h.waiting j hpc with ⟨hj, hrun, hsleep⟩
    refine ⟨hj, hrun, ?_⟩
    intro hs
    refine ⟨(hsleep hs).1, ?_⟩
    intro c hc
    rw [hparent] at hc
    rw [(hfields c).1]
    split at hc
    · rename_i hci
      rw [Option.some.injEq] at hc
      subst hc
      exact hzombie hs hpc c hci
    · exact (hsleep hs).2 c hc

/-- A process without children dies, when its parent does not sleep in `wait`. -/
theorem TableInv.die (h : TableInv s) {i : Fin n} (hi : (s.slot i).Live)
    (hinit : s.initproc ≠ some i) (hpc : (s.slot i).pc = .run)
    (hchildren : ∀ c, (s.slot c).parent ≠ some i)
    (hparent : ∀ q, (s.slot i).parent = some q →
      ¬((s.slot q).state = .sleeping ∧ (s.slot q).pc = .inWait))
    (hslot : t.slot = Function.update s.slot i { s.slot i with state := .zombie })
    (ht : t.initproc = s.initproc) : TableInv t := by
  have hmade := h.not_made (c := i) (fun hbad => Slot.not_live_of_state (by rw [hbad]; rfl) hi)
  refine h.replace (x := { s.slot i with state := .zombie })
    ⟨fun _ => Or.inr ⟨hinit, hchildren⟩, fun _ => h.parents i hi.past, ?_,
    fun hbad => absurd hbad hinit, nofun, ?_, ?_, fun j _ hj => absurd hj (hmade j),
    fun j _ hj => absurd (Or.inr hj) (hmade j), ?_, fun _ => Or.inr hparent⟩ hslot ht
  · intro _
    rcases h.root i hi.past with ⟨r, hr, hlive⟩
    exact ⟨r, hr, Or.inl hlive⟩
  · intro d hd
    simp only [hpc] at hd
    exact hd.elim nofun nofun
  · intro d hd
    simp only [hpc] at hd
    cases hd
  · simp only [hpc]
    exact nofun

/-- Waking and passing on the children can be exchanged. -/
theorem Table.wakeup1_reparent (s : Table n) (i : Fin n) (chan : Chan n) :
    (s.reparent i).wakeup1 chan = (s.wakeup1 chan).reparent i := by
  unfold Table.wakeup1 Table.reparent Table.wake1
  congr 1
  funext c
  simp only
  split <;> split <;> simp_all

/-- The table of `exit` after the wakeups. -/
def Table.exitWakes (s : Table n) (i : Fin n) : Table n :=
  let woken := s.wakeupProc (s.slot i).parent
  if woken.hasZombie i then woken.wakeupProc s.initproc else woken

theorem Table.exit_slot (s : Table n) (i : Fin n) :
    (s.exit i).slot = Function.update ((s.exitWakes i).reparent i).slot i
      { ((s.exitWakes i).reparent i).slot i with state := .zombie } := by
  have hpassed : (if (s.wakeupProc (s.slot i).parent).hasZombie i then
      ((s.wakeupProc (s.slot i).parent).reparent i).wakeupProc s.initproc
      else (s.wakeupProc (s.slot i).parent).reparent i) = (s.exitWakes i).reparent i := by
    unfold Table.exitWakes
    simp only
    split
    · cases s.initproc with
      | none => rfl
      | some r => exact Table.wakeup1_reparent ..
    · rfl
  unfold Table.exit
  simp only
  rw [hpassed]
  rfl

theorem Table.wakeupProc_rest (s : Table n) (q : Option (Fin n)) :
    (s.wakeupProc q).initproc = s.initproc ∧ (s.wakeupProc q).births = s.births ∧
      (s.wakeupProc q).reaped = s.reaped := by
  cases q <;> exact ⟨rfl, rfl, rfl⟩

theorem Table.exit_rest (s : Table n) (i : Fin n) :
    (s.exit i).initproc = s.initproc ∧ (s.exit i).births = s.births ∧
      (s.exit i).reaped = s.reaped := by
  have hw := s.wakeupProc_rest (s.slot i).parent
  unfold Table.exit
  simp only [Table.set]
  split
  · rw [(Table.wakeupProc_rest _ _).1, (Table.wakeupProc_rest _ _).2.1,
      (Table.wakeupProc_rest _ _).2.2]
    exact hw
  · exact hw

/-- A regular process other than `init` exits. -/
theorem TableInv.exit (h : TableInv s) {i : Fin n} (hi : s.RunsProcess i)
    (hinit : s.initproc ≠ some i) : TableInv (s.exit i) := by
  have hlive : (s.slot i).Live := ⟨hi.2, by rw [hi.1.1]; rfl⟩
  have hrun : (s.slot i).state ≠ .sleeping := by
    rw [hi.1.1]
    decide
  rcases h.parents i hlive.past hinit with ⟨q, hq, hqi, _⟩
  rcases h.root i hlive.past with ⟨r, hr, hrlive⟩
  -- the parent is woken
  have hcalm : Calm s (s.wakeup1 (.proc q)) := h.calm_wakeup1 _
  have hinv := h.calm hcalm
  have hawake := h.woken q
  have hself : (s.wakeup1 (.proc q)).slot i = s.slot i := s.wakeup1_of_ne i hrun
  have hrlive' := (hcalm.live_iff r).mpr hrlive
  have hu : s.exitWakes i = if (s.wakeup1 (.proc q)).hasZombie i then
      (s.wakeup1 (.proc q)).wakeup1 (.proc r) else s.wakeup1 (.proc q) := by
    unfold Table.exitWakes
    simp only [hq, Table.wakeupProc, hr]
  have hslot := s.exit_slot i
  have hwr : (s.wakeup1 (.proc q)).initproc = some r := hr
  generalize s.wakeup1 (.proc q) = w at hcalm hinv hawake hself hrlive' hu hwr
  -- `init` is woken when it gets a zombie
  have hpassed : TableInv (s.exitWakes i) ∧ (s.exitWakes i).slot i = s.slot i ∧
      (s.exitWakes i).initproc = some r ∧ ((s.exitWakes i).slot r).Live ∧
      (((s.exitWakes i).slot r).state = .sleeping → ((s.exitWakes i).slot r).pc = .inWait →
        ∀ c, ((s.exitWakes i).slot c).parent = some i →
          ((s.exitWakes i).slot c).state ≠ .zombie) ∧
      ¬(((s.exitWakes i).slot q).state = .sleeping ∧ ((s.exitWakes i).slot q).pc = .inWait) := by
    rw [hu]
    cases hz : w.hasZombie i with
    | true =>
      rw [if_pos rfl]
      have hcalm' := hinv.calm_wakeup1 (.proc r)
      refine ⟨hinv.calm hcalm', ?_, hwr, (hcalm'.live_iff r).mpr hrlive', ?_, ?_⟩
      · rw [w.wakeup1_of_ne i (by rw [hself]; exact hrun), hself]
      · exact fun hs hpc => absurd ⟨hs, hpc⟩ (hinv.woken r)
      · rintro ⟨hs, hpc⟩
        have hsame := w.wakeup1_sleeping q hs
        rw [hsame] at hs hpc
        exact hawake ⟨hs, hpc⟩
    | false =>
      rw [if_neg (by decide)]
      exact ⟨hinv, hself, hwr, hrlive', fun _ _ => w.hasZombie_eq_false i hz, hawake⟩
  generalize s.exitWakes i = u at hpassed hslot
  rcases hpassed with ⟨hinvu, hselfu, hru, hrliveu, hzombie, hawakeu⟩
  have hpcu : (u.slot i).pc = .run := by rw [hselfu, hi.1.2]
  have hinvp := hinvu.reparent hru hrliveu hpcu hzombie
  have hfields := u.reparent_fields i
  have hparent := u.reparent_parent i
  have hlivep : ((u.reparent i).slot i).Live := by
    unfold Slot.Live
    rw [(hfields i).1, (hfields i).2.2.2.1, hselfu]
    exact hlive
  have hinitp : (u.reparent i).initproc ≠ some i :=
    fun hbad => hinit (hr.trans (hru.symm.trans hbad))
  refine hinvp.die hlivep hinitp ?_ ?_ ?_ hslot ((s.exit_rest i).1.trans (hr.trans hru.symm))
  · rw [(hfields i).2.1, hpcu]
  · intro c hc
    rw [hparent] at hc
    split at hc
    · rw [hru] at hc
      exact hinit (hr.trans hc)
    · rename_i hne
      exact hne hc
  · intro q' hq'
    rw [hparent, hselfu, hq, if_neg (by simpa using hqi), Option.some.injEq] at hq'
    rw [← hq', (hfields q).1, (hfields q).2.1]
    exact hawakeu

/-! ## Wait -/

/-- What one round of `wait` does. -/
theorem Table.waitScan_cases (s : Table n) (i : Fin n) :
    (∃ c, (s.slot c).parent = some i ∧ (s.slot c).state = .zombie ∧
      s.waitScan i = (s.reap i c).resume i) ∨
    (∀ c, (s.slot c).parent = some i → (s.slot c).state ≠ .zombie) ∧
      (s.waitScan i = s.resume i ∨ s.waitScan i = s.set i { s.slot i with
        state := .sleeping, chan := some (.proc i), pc := .inWait }) := by
  unfold Table.waitScan
  cases hfind : s.zombieChild i with
  | some c =>
    have hc := s.find_some c hfind
    simp only [decide_eq_true_eq] at hc
    exact Or.inl ⟨c, hc.1, hc.2, rfl⟩
  | none =>
    refine Or.inr ⟨?_, ?_⟩
    · intro c hc hzombie
      have hnone := s.find_none hfind c
      simp [hc, hzombie] at hnone
    · simp only
      split
      · exact Or.inl rfl
      · exact Or.inr rfl

theorem TableInv.calm_resume (h : TableInv s) {i : Fin n} (hlive : (s.slot i).Live)
    (hpc : (s.slot i).pc.calm = true) : Calm s (s.resume i) :=
  h.calm_set ⟨rfl, rfl, rfl⟩ (Or.inr ⟨hlive.2, rfl⟩) (Or.inr ⟨hlive, hpc, rfl⟩) nofun

theorem TableInv.calm_sleepInWait (h : TableInv s) {i : Fin n} (hlive : (s.slot i).Live)
    (hpc : (s.slot i).pc.calm = true)
    (hnone : ∀ c, (s.slot c).parent = some i → (s.slot c).state ≠ .zombie) :
    Calm s (s.set i { s.slot i with
      state := .sleeping, chan := some (.proc i), pc := .inWait }) :=
  h.calm_set ⟨rfl, rfl, rfl⟩ (Or.inr ⟨hlive.2, rfl⟩) (Or.inr ⟨hlive, hpc, rfl⟩)
    fun _ => ⟨nofun, fun _ => ⟨rfl, hnone⟩⟩

theorem TableInv.reap (h : TableInv s) (i : Fin n) {c : Fin n}
    (hc : (s.slot c).state = .zombie) : TableInv (s.reap i c) := by
  have hlive : ¬(s.slot c).Live := Slot.not_live_of_state (by rw [hc]; rfl)
  have hinit : s.initproc ≠ some c := by
    intro hinit
    rcases h.initproc c hinit with hbad | ⟨hbad, _⟩
    · exact hlive hbad
    · rw [hc] at hbad
      cases hbad
  have hmade := h.not_made (c := c) (by rw [hc]; decide)
  exact h.free (x := { s.slot c with pid := 0, parent := none, killed := false, state := .unused })
    hlive hinit hmade rfl rfl rfl rfl

/-- The zombie's entry is freed, and the process is recorded as returned. -/
theorem History.reap (h : History s) (i : Fin n) {c : Fin n}
    (hc : (s.slot c).state = .zombie) : History (s.reap i c) := by
  have hused : (s.slot c).state ≠ .unused := by
    rw [hc]
    decide
  have hother : ∀ j, j ≠ c → (s.reap i c).slot j = s.slot j :=
    fun j hj => Function.update_of_ne hj ..
  have hstate : ((s.reap i c).slot c).state = .unused := by
    simp [Table.reap, Table.set]
  have hne : ∀ j, ((s.reap i c).slot j).state ≠ .unused → j ≠ c := by
    rintro j hj rfl
    exact hj hstate
  have hnew : (s.slot c).birth ∉ s.reaped.map Prod.snd :=
    fun hbad => (h.reaped _ hbad).2 c hused rfl
  have hmap : (s.reap i c).reaped.map Prod.snd =
      (s.slot c).birth :: s.reaped.map Prod.snd := rfl
  constructor
  · intro j hj
    have hjc := hne j hj
    rw [hother j hjc] at hj ⊢
    exact h.births j hj
  · intro j k hj hk heq
    have hjc := hne j hj
    have hkc := hne k hk
    rw [hother j hjc] at hj heq
    rw [hother k hkc] at hk heq
    exact h.inj j k hj hk heq
  · exact h.exited
  · intro j hj
    have hjc := hne j (by rw [hj]; decide)
    rw [hother j hjc] at hj ⊢
    exact h.zombies j hj
  · intro b hb
    rw [hmap]
    rcases h.kept b hb with hb | ⟨j, hj, hjb⟩
    · exact Or.inl (List.mem_cons_of_mem _ hb)
    · by_cases hjc : j = c
      · left
        rw [← hjb, hjc]
        exact List.mem_cons_self
      · exact Or.inr ⟨j, by rwa [hother j hjc], by rwa [hother j hjc]⟩
  · intro b hb
    rw [hmap] at hb
    rcases List.mem_cons.mp hb with rfl | hb
    · refine ⟨h.zombies c hc, ?_⟩
      intro j hj heq
      have hjc := hne j hj
      rw [hother j hjc] at hj heq
      exact hjc (h.inj j c hj hused heq)
    · refine ⟨(h.reaped b hb).1, ?_⟩
      intro j hj
      have hjc := hne j hj
      rw [hother j hjc] at hj ⊢
      exact (h.reaped b hb).2 j hj
  · rw [hmap]
    exact List.nodup_cons.mpr ⟨hnew, h.once⟩

/-- One round of `wait` is a calm step, after at most one zombie was reaped. -/
theorem TableInv.waitScan_calm (h : TableInv s) {i : Fin n} (hlive : (s.slot i).Live)
    (hpc : (s.slot i).pc.calm = true) :
    ∃ u, (u = s ∨ ∃ c, (s.slot c).state = .zombie ∧ u = s.reap i c) ∧ Calm u (s.waitScan i) := by
  rcases s.waitScan_cases i with ⟨c, _, hc, heq⟩ | ⟨hnone, heq | heq⟩
  · have hic : i ≠ c := by
      rintro rfl
      exact Slot.not_live_of_state (by rw [hc]; rfl) hlive
    have hslot : (s.reap i c).slot i = s.slot i := Function.update_of_ne hic ..
    rw [heq]
    exact ⟨_, Or.inr ⟨c, hc, rfl⟩, (h.reap i hc).calm_resume (by rwa [hslot]) (by rwa [hslot])⟩
  · rw [heq]
    exact ⟨s, Or.inl rfl, h.calm_resume hlive hpc⟩
  · rw [heq]
    exact ⟨s, Or.inl rfl, h.calm_sleepInWait hlive hpc hnone⟩

theorem TableInv.waitScan (h : TableInv s) {i : Fin n} (hlive : (s.slot i).Live)
    (hpc : (s.slot i).pc.calm = true) : TableInv (s.waitScan i) := by
  rcases h.waitScan_calm hlive hpc with ⟨u, rfl | ⟨c, hc, rfl⟩, hcalm⟩
  · exact h.calm hcalm
  · exact (h.reap i hc).calm hcalm

theorem History.waitScan (h : History s) (hinv : TableInv s) {i : Fin n}
    (hlive : (s.slot i).Live) (hpc : (s.slot i).pc.calm = true) : History (s.waitScan i) := by
  rcases hinv.waitScan_calm hlive hpc with ⟨u, rfl | ⟨c, hc, rfl⟩, hcalm⟩
  · exact h.calm hcalm
  · exact (h.reap i hc).calm hcalm

/-! ## Fork and the making of entries -/

/-- An entry found by `unused` is unused. -/
theorem Table.unused_some {c : Fin n} (h : s.unused = some c) : (s.slot c).state = .unused := by
  have hc := s.find_some c h
  simpa using hc

/-- Only one process makes an entry. -/
theorem TableInv.maker (h : TableInv s) {i j c : Fin n}
    (hi : (s.slot i).pc = .forking c ∨ (s.slot i).pc = .forked c)
    (hj : (s.slot j).pc = .forking c ∨ (s.slot j).pc = .forked c) : j = i := by
  have hchild := (h.making i c hi).2.2.1
  rw [(h.making j c hj).2.2.1] at hchild
  exact Pc.childOf.inj hchild

/-- Entries of `userinit` and `startkth` are not made by a `fork`. -/
theorem TableInv.not_forked (h : TableInv s) {c : Fin n}
    (hc : (s.slot c).pc = .first ∨ (s.slot c).pc = .kthread) (i : Fin n) :
    ¬((s.slot i).pc = .forking c ∨ (s.slot i).pc = .forked c) := by
  intro hi
  rw [(h.making i c hi).2.2.1] at hc
  rcases hc with hc | hc
  · cases hc
  · cases hc

theorem TableInv.making_ne (h : TableInv s) {i c : Fin n}
    (hi : (s.slot i).pc = .forking c ∨ (s.slot i).pc = .forked c) : i ≠ c := by
  rintro rfl
  have hmaking := h.making i i hi
  exact Slot.not_live_of_state (by rw [hmaking.2.1]; rfl) hmaking.1

/-- `userinit` gives out the entry of `init`, when no process exists. -/
theorem TableInv.userinit (h : TableInv s) (hnone : s.initproc = none) {c : Fin n}
    (hc : (s.slot c).state = .unused) :
    TableInv { s.alloc c .first with initproc := some c } := by
  have hnopast : ∀ i, ¬(s.slot i).Past := by
    intro i hi
    rcases h.root i hi with ⟨r, hr, _⟩
    rw [hnone] at hr
    cases hr
  have hmade := h.not_made (c := c) (by rw [hc]; decide)
  have hnopc : ∀ i d, ¬((s.slot i).pc = .forking d ∨ (s.slot i).pc = .forked d) :=
    fun i d hd => hnopast i (h.making i d hd).1.past
  have hother : ∀ i, i ≠ c → (s.alloc c .first).slot i = s.slot i :=
    fun i hi => Function.update_of_ne hi ..
  have hself : (s.alloc c .first).slot c = { s.slot c with
      state := .embryo, pid := s.nextpid, isProcess := true, pc := .first, birth := s.births } :=
    Function.update_self ..
  have hnopast' : ∀ i, ¬((s.alloc c .first).slot i).Past := by
    intro i hi
    by_cases hic : i = c
    · rw [hic, hself] at hi
      exact Slot.not_past_of_state rfl hi
    · rw [hother i hic] at hi
      exact hnopast i hi
  have hnopc' : ∀ i d, ¬(((s.alloc c .first).slot i).pc = .forking d ∨
      ((s.alloc c .first).slot i).pc = .forked d) := by
    intro i d hd
    by_cases hic : i = c
    · rw [hic, hself] at hd
      exact hd.elim nofun nofun
    · rw [hother i hic] at hd
      exact hnopc i d hd
  refine ⟨fun i hi => absurd hi (hnopast' i), fun i hi => absurd hi (hnopast' i), ?_, ?_,
    fun i d hd => absurd hd (hnopc' i d), fun i d hd => absurd (Or.inr hd) (hnopc' i d), ?_⟩
  · intro r hr
    cases hr
    right
    show ((s.alloc c .first).slot c).state = _ ∧ ((s.alloc c .first).slot c).pc = _
    rw [hself]
    exact ⟨rfl, rfl⟩
  · intro d hd hpc
    by_cases hdc : d = c
    · rw [hdc]
    · rw [hother d hdc] at hd hpc
      rw [h.first d hd hpc] at hnone
      cases hnone
  · intro i hi
    by_cases hic : i = c
    · rw [hic, hself] at hi
      cases hi
    · rw [hother i hic] at hi
      exact absurd (h.waiting i hi).1.past (hnopast i)

theorem TableInv.fork (h : TableInv s) {i c : Fin n} (hi : s.RunsProcess i)
    (hc : (s.slot c).state = .unused) :
    TableInv ((s.alloc c (.childOf i)).goto i (.forking c)) := by
  have hic : i ≠ c := by
    rintro rfl
    rw [hi.1.1] at hc
    cases hc
  have hslot : (s.alloc c (.childOf i)).slot i = s.slot i := Function.update_of_ne hic ..
  have hself : (s.alloc c (.childOf i)).slot c = { s.slot c with
      state := .embryo, pid := s.nextpid, isProcess := true, pc := .childOf i,
      birth := s.births } := Function.update_self ..
  refine (h.alloc hc (Or.inr ⟨i, rfl⟩)).goto ?_ nofun nofun ?_ nofun
  · rw [hslot]
    exact ⟨hi.2, by rw [hi.1.1]; rfl⟩
  · intro d hd
    have hdc : c = d := by
      rcases hd with hd | hd
      · exact Pc.forking.inj hd
      · cases hd
    rw [← hdc, hself]
    exact ⟨hic.symm, rfl, rfl, rfl⟩

/-- The maker of `c` leaves `fork`. -/
theorem TableInv.leave (h : TableInv s) {i c : Fin n}
    (hi : (s.slot i).pc = .forking c ∨ (s.slot i).pc = .forked c) :
    TableInv (s.goto i .run) ∧ (s.goto i .run).slot c = s.slot c ∧
      ∀ j, ¬(((s.goto i .run).slot j).pc = .forking c ∨
        ((s.goto i .run).slot j).pc = .forked c) := by
  refine ⟨h.goto (h.making i c hi).1 nofun nofun ?_ nofun,
    Table.set_of_ne _ _ _ (h.making_ne hi).symm, ?_⟩
  · intro d hd
    exact hd.elim nofun nofun
  · intro j hj
    by_cases hji : j = i
    · rw [hji, Table.goto, Table.set_self] at hj
      exact hj.elim nofun nofun
    · rw [Table.goto, Table.set_of_ne _ _ _ hji] at hj
      exact hji (h.maker hi hj)

/-- The maker of `c` and `c` change in either order. -/
theorem Table.goto_set (s : Table n) {i c : Fin n} (hic : i ≠ c) (pc : Pc n) (x : Slot n) :
    ((s.set c x).goto i pc) = (s.goto i pc).set c x := by
  unfold Table.goto Table.set
  simp only [Function.update_of_ne hic]
  rw [Function.update_comm hic]

theorem TableInv.forkFail (h : TableInv s) {i c : Fin n} (hi : (s.slot i).pc = .forking c) :
    TableInv ((s.drop c).goto i .run) := by
  have hic := h.making_ne (Or.inl hi)
  rcases h.making i c (Or.inl hi) with ⟨_, hembryo, hchild, _⟩
  rcases h.leave (Or.inl hi) with ⟨hinv, hslot, hmade⟩
  rw [Table.drop, s.goto_set hic]
  refine hinv.free (c := c) (x := { s.slot c with state := .unused }) ?_ ?_ hmade rfl ?_ rfl rfl
  · rw [hslot]
    exact Slot.not_live_of_state (by rw [hembryo]; rfl)
  · intro hinit
    rcases h.initproc c hinit with hlive | ⟨_, hfirst⟩
    · exact Slot.not_live_of_state (by rw [hembryo]; rfl) hlive
    · rw [hchild] at hfirst
      cases hfirst
  · rw [hslot]

theorem TableInv.forkParent (h : TableInv s) {i c : Fin n} (hi : (s.slot i).pc = .forking c) :
    TableInv ((s.set c { s.slot c with parent := some i }).goto i (.forked c)) := by
  have hic := h.making_ne (Or.inl hi)
  rcases h.making i c (Or.inl hi) with ⟨hlive, hembryo, hchild, hproc⟩
  have hslot : (s.set c { s.slot c with parent := some i }).slot i = s.slot i :=
    Table.set_of_ne _ _ _ hic
  have hself : (s.set c { s.slot c with parent := some i }).slot c =
      { s.slot c with parent := some i } := Table.set_self ..
  have hset : TableInv (s.set c { s.slot c with parent := some i }) := by
    refine h.replace (c := c) (x := { s.slot c with parent := some i }) ⟨Or.inl, ?_, ?_,
      h.initproc c, h.first c, ?_, ?_, ?_, ?_, ?_, ?_⟩ rfl rfl
    · exact fun hp => absurd hp (Slot.not_past_of_state (by rw [hembryo]; rfl))
    · exact fun hp => absurd hp (Slot.not_past_of_state (by rw [hembryo]; rfl))
    · intro d hd
      rw [hchild] at hd
      exact hd.elim nofun nofun
    · intro d hd
      rw [hchild] at hd
      cases hd
    · intro j _ hj
      exact (h.making j c hj).2
    · -- the maker is `i`, which has not set the parent before
      intro j _ hj
      rw [h.maker (Or.inl hi) (Or.inr hj), hi] at hj
      cases hj
    · rw [hchild]
      nofun
    · intro hzombie
      rw [hembryo] at hzombie
      cases hzombie
  refine hset.goto (by rwa [hslot]) nofun nofun ?_ ?_
  · intro d hd
    have hdc : c = d := by
      rcases hd with hd | hd
      · cases hd
      · exact Pc.forked.inj hd
    rw [← hdc, hself]
    exact ⟨hic.symm, hembryo, hchild, hproc⟩
  · intro d hd
    rw [← Pc.forked.inj hd, hself]

theorem TableInv.forkDone (h : TableInv s) {i c : Fin n} (hi : (s.slot i).pc = .forked c) :
    TableInv ((s.start c (s.slot c).isProcess).goto i .run) := by
  have hic := h.making_ne (Or.inr hi)
  rcases h.making i c (Or.inr hi) with ⟨hlive, hembryo, _, hproc⟩
  rcases h.leave (Or.inr hi) with ⟨hinv, hslot, hmade⟩
  have hstart : (s.start c (s.slot c).isProcess).goto i .run =
      (s.goto i .run).start c (s.slot c).isProcess := by
    unfold Table.start
    rw [s.goto_set hic, hslot]
  rw [hstart]
  refine hinv.start (by rwa [hslot]) hmade (fun _ => hproc) ?_
  intro _ _
  refine ⟨i, by rw [hslot, h.forked i c hi], hic, ?_⟩
  rw [Table.goto, Table.set_self]
  exact hlive

/-! ## The history -/

/-- A step on one entry that neither gives it out nor changes whether it is a zombie. -/
theorem History.set (h : History s) {c : Fin n} {x : Slot n} (hbirth : x.birth = (s.slot c).birth)
    (hunused : x.state ≠ .unused → (s.slot c).state ≠ .unused)
    (hzombie : x.state = .zombie ↔ (s.slot c).state = .zombie) : History (s.set c x) := by
  refine h.mono rfl rfl rfl ?_ ?_ ?_
  · intro i
    by_cases hi : i = c
    · rw [hi, Table.set_self, hbirth]
    · rw [Table.set_of_ne _ _ _ hi]
  · intro i
    by_cases hi : i = c
    · rwa [hi, Table.set_self]
    · rw [Table.set_of_ne _ _ _ hi]
      exact fun hs => hs
  · intro i
    by_cases hi : i = c
    · rwa [hi, Table.set_self]
    · rw [Table.set_of_ne _ _ _ hi]

theorem History.goto (h : History s) (i : Fin n) (pc : Pc n) : History (s.goto i pc) :=
  h.set rfl (fun hs => hs) Iff.rfl

theorem History.alloc (h : History s) {c : Fin n} (hc : (s.slot c).state = .unused) (pc : Pc n) :
    History (s.alloc c pc) := by
  have hother : ∀ j, j ≠ c → (s.alloc c pc).slot j = s.slot j :=
    fun j hj => Function.update_of_ne hj ..
  have hstate : ((s.alloc c pc).slot c).state = .embryo := by
    simp [Table.alloc]
  have hbirth : ((s.alloc c pc).slot c).birth = s.births := by
    simp [Table.alloc]
  constructor
  · intro j hj
    show ((s.alloc c pc).slot j).birth < s.births + 1
    by_cases hjc : j = c
    · rw [hjc, hbirth]
      omega
    · rw [hother j hjc] at hj ⊢
      have hlt := h.births j hj
      omega
  · intro j k hj hk heq
    by_cases hjc : j = c
    · by_cases hkc : k = c
      · rw [hjc, hkc]
      · rw [hother k hkc] at hk heq
        rw [hjc, hbirth] at heq
        have hlt := h.births k hk
        omega
    · rw [hother j hjc] at hj heq
      by_cases hkc : k = c
      · rw [hkc, hbirth] at heq
        have hlt := h.births j hj
        omega
      · rw [hother k hkc] at hk heq
        exact h.inj j k hj hk heq
  · intro b hb
    exact Nat.lt_succ_of_lt (h.exited b hb)
  · intro j hj
    by_cases hjc : j = c
    · rw [hjc, hstate] at hj
      cases hj
    · rw [hother j hjc] at hj ⊢
      exact h.zombies j hj
  · intro b hb
    rcases h.kept b hb with hb | ⟨j, hj, hjb⟩
    · exact Or.inl hb
    · have hjc : j ≠ c := by
        rintro rfl
        rw [hc] at hj
        cases hj
      exact Or.inr ⟨j, by rwa [hother j hjc], by rwa [hother j hjc]⟩
  · intro b hb
    rcases h.reaped b hb with ⟨hb', hnot⟩
    refine ⟨hb', ?_⟩
    intro j hj
    by_cases hjc : j = c
    · rw [hjc, hbirth]
      exact (h.exited b hb').ne'
    · rw [hother j hjc] at hj ⊢
      exact hnot j hj
  · exact h.once

/-- A process becomes a zombie and is recorded as exited. -/
theorem History.die (h : History s) {i : Fin n} (hi : (s.slot i).state ≠ .unused)
    (hslot : t.slot = Function.update s.slot i { s.slot i with state := .zombie })
    (hbirths : t.births = s.births) (hexited : t.exited = (s.slot i).birth :: s.exited)
    (hreaped : t.reaped = s.reaped) : History t := by
  have hself : t.slot i = { s.slot i with state := .zombie } := by
    rw [hslot, Function.update_self]
  have hother : ∀ c, c ≠ i → t.slot c = s.slot c := by
    intro c hc
    rw [hslot, Function.update_of_ne hc]
  have hbirth : ∀ c, (t.slot c).birth = (s.slot c).birth := by
    intro c
    by_cases hc : c = i
    · rw [hc, hself]
    · rw [hother c hc]
  have hused : ∀ c, (t.slot c).state ≠ .unused → (s.slot c).state ≠ .unused := by
    intro c hc
    by_cases hci : c = i
    · rwa [hci]
    · rwa [← hother c hci]
  constructor
  · intro c hc
    rw [hbirth, hbirths]
    exact h.births c (hused c hc)
  · intro c d hc hd heq
    rw [hbirth, hbirth] at heq
    exact h.inj c d (hused c hc) (hused d hd) heq
  · intro b hb
    rw [hexited] at hb
    rw [hbirths]
    rcases List.mem_cons.mp hb with rfl | hb
    · exact h.births i hi
    · exact h.exited b hb
  · intro c hc
    rw [hbirth, hexited]
    by_cases hci : c = i
    · rw [hci]
      exact List.mem_cons_self
    · rw [hother c hci] at hc
      exact List.mem_cons_of_mem _ (h.zombies c hc)
  · intro b hb
    rw [hexited] at hb
    rw [hreaped]
    rcases List.mem_cons.mp hb with rfl | hb
    · exact Or.inr ⟨i, by rw [hself], hbirth i⟩
    · rcases h.kept b hb with hb | ⟨c, hc, hcb⟩
      · exact Or.inl hb
      · refine Or.inr ⟨c, ?_, by rw [hbirth, hcb]⟩
        by_cases hci : c = i
        · rw [hci, hself]
        · rwa [hother c hci]
  · intro b hb
    rw [hreaped] at hb
    rw [hexited]
    refine ⟨List.mem_cons_of_mem _ (h.reaped b hb).1, ?_⟩
    intro c hc
    rw [hbirth]
    exact (h.reaped b hb).2 c (hused c hc)
  · rw [hreaped]
    exact h.once

theorem Calm.trans {u : Table n} (h : Calm s t) (h' : Calm t u) : Calm s u := by
  refine ⟨h'.initproc.trans h.initproc, h'.births.trans h.births, h'.exited.trans h.exited,
    h'.reaped.trans h.reaped, ?_, ?_, ?_, ?_⟩
  · intro i
    rw [(h'.fields i).1, (h'.fields i).2.1, (h'.fields i).2.2]
    exact h.fields i
  · intro i
    rcases h'.state i with heq | ⟨ht, hu⟩
    · rw [heq]
      exact h.state i
    · refine Or.inr ⟨?_, hu⟩
      rcases h.state i with heq | ⟨hs, _⟩
      · rwa [← heq]
      · exact hs
  · intro i
    rcases h'.pc i with heq | ⟨hlive, ht, hu⟩
    · rw [heq]
      exact h.pc i
    · refine Or.inr ⟨(h.live_iff i).mp hlive, ?_, hu⟩
      rcases h.pc i with heq | ⟨_, hs, _⟩
      · rwa [← heq]
      · exact hs
  · intro i hi
    refine ⟨(h'.waiting i hi).1, ?_⟩
    intro hs
    refine ⟨((h'.waiting i hi).2 hs).1, ?_⟩
    intro c hc hzombie
    refine ((h'.waiting i hi).2 hs).2 c ?_ ((h.state_iff c rfl).mpr hzombie)
    rw [(h.fields c).1, hc]

theorem TableInv.calm_exitWakes (h : TableInv s) (i : Fin n) : Calm s (s.exitWakes i) := by
  have hcalm := h.calm_wakeupProc (s.slot i).parent
  unfold Table.exitWakes
  simp only
  split
  · exact hcalm.trans ((h.calm hcalm).calm_wakeupProc s.initproc)
  · exact hcalm

/-- What `exit` does to the entries, but for parents. -/
theorem TableInv.exit_fields (h : TableInv s) (i : Fin n) :
    Calm s (s.exitWakes i) ∧ ((s.exit i).slot i).state = .zombie ∧
      (∀ c, c ≠ i → ((s.exit i).slot c).state = ((s.exitWakes i).slot c).state) ∧
      ∀ c, ((s.exit i).slot c).birth = (s.slot c).birth := by
  have hcalm := h.calm_exitWakes i
  have hfields := (s.exitWakes i).reparent_fields i
  have hslot := s.exit_slot i
  refine ⟨hcalm, ?_, ?_, ?_⟩
  · rw [hslot, Function.update_self]
  · intro c hc
    rw [hslot, Function.update_of_ne hc, (hfields c).1]
  · intro c
    rw [hslot]
    by_cases hc : c = i
    · rw [hc, Function.update_self]
      exact (hfields i).2.2.2.2.trans (hcalm.fields i).2.2
    · rw [Function.update_of_ne hc]
      exact (hfields c).2.2.2.2.trans (hcalm.fields c).2.2

theorem History.exit (h : History s) (hinv : TableInv s) {i : Fin n}
    (hi : (s.slot i).state ≠ .unused) : History (s.exit i) := by
  have hcalm := hinv.calm_exitWakes i
  have hfields := (s.exitWakes i).reparent_fields i
  have hpassed : History ((s.exitWakes i).reparent i) := by
    refine (h.calm hcalm).mono rfl rfl rfl (fun c => (hfields c).2.2.2.2) ?_ ?_
    · intro c
      rw [(hfields c).1]
      exact fun hs => hs
    · intro c
      rw [(hfields c).1]
  refine hpassed.die (i := i) ?_ (s.exit_slot i) ?_ ?_ ?_
  · rw [(hfields i).1]
    exact fun hbad => hi ((hcalm.state_iff i rfl).mp hbad)
  · exact (s.exit_rest i).2.1.trans hcalm.births.symm
  · rw [(hfields i).2.2.2.2, (hcalm.fields i).2.2]
    exact congrArg _ hcalm.exited.symm
  · exact (s.exit_rest i).2.2.trans hcalm.reaped.symm

/-! ## All steps -/

/-- No zombie is returned or goes away. -/
structure Keeps (s t : Table n) : Prop where
  reaped : t.reaped = s.reaped
  zombie : ∀ c, (s.slot c).state = .zombie →
    (t.slot c).state = .zombie ∧ (t.slot c).birth = (s.slot c).birth

/-- A `wait` of its parent `i` returns the zombie `c`. -/
structure Returned (s : Table n) (a : TableAction n) (i c : Fin n) (t : Table n) : Prop where
  wait : a = .wait i ∨ a = .schedule i ∧ (s.slot i).pc = .inWait
  parent : (s.slot c).parent = some i
  zombie : (s.slot c).state = .zombie
  freed : (t.slot c).state = .unused
  reaped : t.reaped = (i, (s.slot c).birth) :: s.reaped
  others : ∀ d, d ≠ c → (s.slot d).state = .zombie →
    (t.slot d).state = .zombie ∧ (t.slot d).birth = (s.slot d).birth

theorem Calm.keeps (h : Calm s t) : Keeps s t :=
  ⟨h.reaped, fun c hc => ⟨(h.state_iff c rfl).mpr hc, (h.fields c).2.2⟩⟩

theorem Keeps.update {c : Fin n} {x : Slot n} (hc : (s.slot c).state ≠ .zombie)
    (hslot : t.slot = Function.update s.slot c x) (hreaped : t.reaped = s.reaped) :
    Keeps s t := by
  refine ⟨hreaped, ?_⟩
  intro d hd
  have hdc : d ≠ c := by
    rintro rfl
    exact hc hd
  rw [hslot, Function.update_of_ne hdc]
  exact ⟨hd, rfl⟩

theorem Keeps.goto (h : Keeps s t) (i : Fin n) (pc : Pc n) : Keeps s (t.goto i pc) := by
  refine ⟨h.reaped, ?_⟩
  intro c hc
  by_cases hci : c = i
  · rw [hci] at hc ⊢
    rw [Table.goto, Table.set_self]
    exact h.zombie i hc
  · rw [Table.goto, Table.set_of_ne _ _ _ hci]
    exact h.zombie c hc

theorem TableInv.keeps_exit (h : TableInv s) {i : Fin n} : Keeps s (s.exit i) := by
  rcases h.exit_fields i with ⟨hcalm, hzombie, hstate, hbirth⟩
  refine ⟨(s.exit_rest i).2.2, ?_⟩
  intro c hc
  refine ⟨?_, hbirth c⟩
  by_cases hci : c = i
  · rw [hci, hzombie]
  · rw [hstate c hci]
    exact (hcalm.state_iff c rfl).mpr hc

theorem TableInv.waitScan_returned (h : TableInv s) {i : Fin n} (hlive : (s.slot i).Live)
    (hpc : (s.slot i).pc.calm = true) {a : TableAction n}
    (ha : a = .wait i ∨ a = .schedule i ∧ (s.slot i).pc = .inWait) :
    Keeps s (s.waitScan i) ∨ ∃ j c, Returned s a j c (s.waitScan i) := by
  rcases s.waitScan_cases i with ⟨c, hparent, hc, heq⟩ | ⟨hnone, heq | heq⟩
  · have hic : i ≠ c := by
      rintro rfl
      exact Slot.not_live_of_state (by rw [hc]; rfl) hlive
    have hslot : (s.reap i c).slot i = s.slot i := Function.update_of_ne hic ..
    have hcalm := (h.reap i hc).calm_resume (i := i) (by rwa [hslot]) (by rwa [hslot])
    right
    refine ⟨i, c, ha, hparent, hc, ?_, ?_, ?_⟩
    · rw [heq, hcalm.state_iff c rfl]
      simp [Table.reap, Table.set]
    · rw [heq]
      rfl
    · intro d hdc hd
      have hslot : (s.reap i c).slot d = s.slot d := Function.update_of_ne hdc ..
      rw [heq, hcalm.state_iff d rfl, (hcalm.fields d).2.2, hslot]
      exact ⟨hd, rfl⟩
  · left
    rw [heq]
    exact (h.calm_resume hlive hpc).keeps
  · left
    rw [heq]
    exact (h.calm_sleepInWait hlive hpc hnone).keeps

/-- What a step comes to. -/
structure Outcome (s : Table n) (a : TableAction n) (t : Table n) : Prop where
  table : TableInv t
  history : History t
  zombies : Keeps s t ∨ ∃ j c, Returned s a j c t

theorem Outcome.calm (h : TableInv s) (hh : History s) {a : TableAction n} (hc : Calm s t) :
    Outcome s a t :=
  ⟨h.calm hc, hh.calm hc, Or.inl hc.keeps⟩

theorem Outcome.waitScan (h : TableInv s) (hh : History s) {i : Fin n} (hlive : (s.slot i).Live)
    (hpc : (s.slot i).pc.calm = true) {a : TableAction n}
    (ha : a = .wait i ∨ a = .schedule i ∧ (s.slot i).pc = .inWait) :
    Outcome s a (s.waitScan i) :=
  ⟨h.waitScan hlive hpc, hh.waitScan h hlive hpc, h.waitScan_returned hlive hpc ha⟩

/-- A step of `fork`: the child changes, and then the program point of the parent. -/
theorem Outcome.goto {a : TableAction n} {i : Fin n} {pc : Pc n} (h : TableInv (t.goto i pc))
    (hh : History t) (hkeeps : Keeps s t) : Outcome s a (t.goto i pc) :=
  ⟨h, hh.goto i pc, Or.inl (hkeeps.goto i pc)⟩

theorem Table.forkingChild_some {i c : Fin n} (h : s.forkingChild i = some c) :
    (s.slot i).pc = .forking c := by
  unfold Table.forkingChild at h
  split at h
  · rename_i hpc
    cases h
    exact hpc
  · cases h

theorem Table.forkedChild_some {i c : Fin n} (h : s.forkedChild i = some c) :
    (s.slot i).pc = .forked c := by
  unfold Table.forkedChild at h
  split at h
  · rename_i hpc
    cases h
    exact hpc
  · cases h

theorem TableInv.not_initproc (h : TableInv s) {c : Fin n} (hlive : ¬(s.slot c).Live)
    (hfirst : ¬((s.slot c).state = .embryo ∧ (s.slot c).pc = .first)) :
    s.initproc ≠ some c := by
  intro hinit
  rcases h.initproc c hinit with hbad | hbad
  · exact hlive hbad
  · exact hfirst hbad

theorem TableInv.step (h : TableInv s) (hh : History s) {a : TableAction n}
    (hstep : tableStep s a = some t) : Outcome s a t := by
  cases a with
  | userinit =>
    simp only [tableStep, Option.ite_none_right_eq_some, Option.map_eq_some_iff] at hstep
    rcases hstep with ⟨hnone, c, hc, rfl⟩
    have hunused := Table.unused_some hc
    have halloc := hh.alloc hunused .first
    refine ⟨h.userinit hnone hunused, ⟨halloc.births, halloc.inj, halloc.exited, halloc.zombies,
      halloc.kept, halloc.reaped, halloc.once⟩, Or.inl (Keeps.update (c := c) ?_ rfl rfl)⟩
    rw [hunused]
    decide
  | userinitDone c =>
    simp only [tableStep, Option.ite_none_right_eq_some, Option.some.injEq] at hstep
    rcases hstep with ⟨⟨hembryo, hpc⟩, rfl⟩
    have hinit := h.first c hembryo hpc
    refine ⟨h.start hembryo (h.not_forked (Or.inl hpc)) (fun _ => rfl)
      (fun _ hne => absurd hinit hne), hh.set rfl ?_ ?_, Or.inl (Keeps.update (c := c) ?_ rfl rfl)⟩
    all_goals simp [hembryo]
  | startkth =>
    simp only [tableStep, Option.map_eq_some_iff] at hstep
    rcases hstep with ⟨c, hc, rfl⟩
    have hunused := Table.unused_some hc
    refine ⟨h.alloc hunused (Or.inl rfl), hh.alloc hunused _,
      Or.inl (Keeps.update (c := c) ?_ rfl rfl)⟩
    rw [hunused]
    decide
  | startkthFail c =>
    simp only [tableStep, Option.ite_none_right_eq_some, Option.some.injEq] at hstep
    rcases hstep with ⟨⟨hembryo, hpc⟩, rfl⟩
    have hlive : ¬(s.slot c).Live := Slot.not_live_of_state (by rw [hembryo]; rfl)
    have hinit := h.not_initproc hlive (by simp [hpc])
    refine ⟨h.free (x := { s.slot c with state := .unused }) hlive hinit
      (h.not_forked (Or.inr hpc)) rfl rfl rfl rfl, hh.set rfl ?_ ?_,
      Or.inl (Keeps.update (c := c) ?_ rfl rfl)⟩
    all_goals simp [hembryo]
  | startkthDone c =>
    simp only [tableStep, Option.ite_none_right_eq_some, Option.some.injEq] at hstep
    rcases hstep with ⟨⟨hembryo, hpc⟩, rfl⟩
    have hlive : ¬(s.slot c).Live := Slot.not_live_of_state (by rw [hembryo]; rfl)
    have hinit := h.not_initproc hlive (by simp [hpc])
    refine ⟨h.start hembryo (h.not_forked (Or.inr hpc)) (fun hbad => absurd hbad hinit) nofun,
      hh.set rfl ?_ ?_, Or.inl (Keeps.update (c := c) ?_ rfl rfl)⟩
    all_goals simp [hembryo]
  | exitkth i =>
    simp only [tableStep, Option.ite_none_right_eq_some, Option.some.injEq] at hstep
    rcases hstep with ⟨⟨⟨hrunning, _⟩, hthread⟩, rfl⟩
    have hlive : ¬(s.slot i).Live := by
      intro hbad
      have hprocess := hbad.1
      rw [hthread] at hprocess
      cases hprocess
    have hinit := h.not_initproc hlive (by simp [hrunning])
    have hmade := h.not_made (c := i) (by simp [hrunning])
    refine ⟨h.free (x := { s.slot i with pid := 0, state := .unused }) hlive hinit hmade
      rfl rfl rfl rfl, hh.set rfl ?_ ?_, Or.inl (Keeps.update (c := i) ?_ rfl rfl)⟩
    all_goals simp [hrunning]
  | fork i =>
    simp only [tableStep, Option.ite_none_right_eq_some, Option.map_eq_some_iff] at hstep
    rcases hstep with ⟨hi, c, hc, rfl⟩
    have hunused := Table.unused_some hc
    refine Outcome.goto (h.fork hi hunused) (hh.alloc hunused _)
      (Keeps.update (c := c) ?_ rfl rfl)
    rw [hunused]
    decide
  | forkFail i =>
    simp only [tableStep, Option.map_eq_some_iff] at hstep
    rcases hstep with ⟨c, hc, rfl⟩
    have hpc := Table.forkingChild_some hc
    have hembryo := (h.making i c (Or.inl hpc)).2.1
    refine Outcome.goto (h.forkFail hpc) (hh.set (c := c) ?_ ?_ ?_)
      (Keeps.update (c := c) ?_ rfl rfl)
    all_goals simp [hembryo]
  | forkParent i =>
    simp only [tableStep, Option.map_eq_some_iff] at hstep
    rcases hstep with ⟨c, hc, rfl⟩
    have hpc := Table.forkingChild_some hc
    have hembryo := (h.making i c (Or.inl hpc)).2.1
    refine Outcome.goto (h.forkParent hpc) (hh.set (c := c) ?_ ?_ ?_)
      (Keeps.update (c := c) ?_ rfl rfl)
    all_goals simp [hembryo]
  | forkDone i =>
    simp only [tableStep, Option.map_eq_some_iff] at hstep
    rcases hstep with ⟨c, hc, rfl⟩
    have hpc := Table.forkedChild_some hc
    have hembryo := (h.making i c (Or.inr hpc)).2.1
    refine Outcome.goto (h.forkDone hpc) (hh.set (c := c) ?_ ?_ ?_)
      (Keeps.update (c := c) ?_ rfl rfl)
    all_goals simp [hembryo]
  | exit i =>
    simp only [tableStep, Option.ite_none_right_eq_some, Option.some.injEq] at hstep
    rcases hstep with ⟨⟨hi, hinit⟩, rfl⟩
    exact ⟨h.exit hi hinit, hh.exit h (by simp [hi.1.1]), Or.inl h.keeps_exit⟩
  | wait i =>
    simp only [tableStep, Option.ite_none_right_eq_some, Option.some.injEq] at hstep
    rcases hstep with ⟨hi, rfl⟩
    exact Outcome.waitScan h hh ⟨hi.2, by rw [hi.1.1]; rfl⟩ (by rw [hi.1.2]; rfl) (Or.inl rfl)
  | kill pid =>
    simp only [tableStep, Option.some.injEq] at hstep
    rw [← hstep]
    exact Outcome.calm h hh (h.calm_kill pid)
  | sleep i k =>
    simp only [tableStep, Option.ite_none_right_eq_some, Option.some.injEq] at hstep
    rcases hstep with ⟨hi, rfl⟩
    refine Outcome.calm h hh (h.calm_set ⟨rfl, rfl, rfl⟩ (Or.inr ⟨?_, rfl⟩) (Or.inl rfl) ?_)
    · rw [hi.1]
      rfl
    · intro hbad
      rw [hi.2] at hbad
      cases hbad
  | wakeup k =>
    simp only [tableStep, Option.some.injEq] at hstep
    rw [← hstep]
    exact Outcome.calm h hh (h.calm_wakeup1 _)
  | yield i =>
    simp only [tableStep, Option.ite_none_right_eq_some, Option.some.injEq] at hstep
    rcases hstep with ⟨hi, rfl⟩
    refine Outcome.calm h hh (h.calm_set ⟨rfl, rfl, rfl⟩ (Or.inr ⟨?_, rfl⟩) (Or.inl rfl) ?_)
    · rw [hi]
      rfl
    · exact fun hbad => absurd hi (h.waiting i hbad).2.1
  | schedule i =>
    simp only [tableStep, Option.ite_none_right_eq_some, Option.some.injEq] at hstep
    rcases hstep with ⟨hi, rfl⟩
    unfold Table.schedule
    split
    · rename_i hpc
      exact Outcome.waitScan h hh (h.waiting i hpc).1 (by rw [hpc]; rfl) (Or.inr ⟨rfl, hpc⟩)
    · rename_i hpc
      refine Outcome.calm h hh (h.calm_set ⟨rfl, rfl, rfl⟩ (Or.inr ⟨?_, rfl⟩) (Or.inl rfl) ?_)
      · rw [hi]
        rfl
      · exact fun hbad => absurd hbad hpc

end Steps

/-! ## The life cycle -/

/-- Both invariants hold after every run. -/
theorem runs_inv {n : Nat} {as : List (TableAction n)} {s : Table n}
    (hrun : runFrom tableStep (tableInit n) as = some s) : TableInv s ∧ History s := by
  refine runFrom_invariant (I := fun s => TableInv s ∧ History s) ?_
    ⟨tableInit_inv n, tableInit_history n⟩ hrun
  intro s a t hs hst
  have houtcome := hs.1.step hs.2 hst
  exact ⟨houtcome.table, houtcome.history⟩

/-- In every state reached by any interleaving: every regular process past `EMBRYO`,
other than `init`, has a parent that is neither `UNUSED` nor a `ZOMBIE`; nobody sleeps in
`wait` while a child of its own is a `ZOMBIE`; who exited was returned by one `wait` and by
no second one, or is still a `ZOMBIE`; and a step leaves the `ZOMBIE`s alone, or is the
`wait` of the parent of one of them, which alone becomes `UNUSED` and is returned. -/
theorem process_lifecycle {n : Nat} (as : List (TableAction n)) (s : Table n)
    (hrun : runFrom tableStep (tableInit n) as = some s) :
    (∀ i, (s.slot i).isProcess = true → (s.slot i).state ≠ .unused →
      (s.slot i).state ≠ .embryo → s.initproc ≠ some i →
      ∃ q, (s.slot i).parent = some q ∧ (s.slot q).state ≠ .unused ∧
        (s.slot q).state ≠ .zombie) ∧
    (∀ i c, (s.slot i).pc = .inWait → (s.slot i).state = .sleeping →
      (s.slot c).parent = some i → (s.slot c).state ≠ .zombie) ∧
    (s.reaped.map Prod.snd).Nodup ∧
    (∀ b ∈ s.reaped.map Prod.snd, b ∈ s.exited) ∧
    (∀ b ∈ s.exited, b ∈ s.reaped.map Prod.snd ∨
      ∃ c, (s.slot c).state = .zombie ∧ (s.slot c).birth = b) ∧
    ∀ a t, tableStep s a = some t → Keeps s t ∨ ∃ i c, Returned s a i c t := by
  rcases runs_inv hrun with ⟨h, hh⟩
  refine ⟨?_, ?_, hh.once, fun b hb => (hh.reaped b hb).1, hh.kept, ?_⟩
  · intro i hprocess hunused hembryo hinit
    have hpast : (s.slot i).Past := by
      refine ⟨hprocess, ?_⟩
      cases hstate : (s.slot i).state with
      | unused => exact absurd hstate hunused
      | embryo => exact absurd hstate hembryo
      | sleeping | runnable | running | zombie | kzombie => rfl
    rcases h.parents i hpast hinit with ⟨q, hq, _, hlive⟩
    refine ⟨q, hq, ?_, ?_⟩
    · exact fun hbad => Slot.not_live_of_state (by rw [hbad]; rfl) hlive
    · exact fun hbad => Slot.not_live_of_state (by rw [hbad]; rfl) hlive
  · intro i c hpc hsleeping
    exact ((h.waiting i hpc).2.2 hsleeping).2 c
  · intro a t hstep
    exact (h.step hh hstep).zombies

/-- `init` forks and waits; the child exits and is returned. -/
def oneChild : List (TableAction 2) :=
  [.userinit, .userinitDone 0, .schedule 0, .fork 0, .forkParent 0, .forkDone 0, .wait 0,
    .schedule 1, .exit 1, .schedule 0]

/-- The child of this run, the second process made, is returned once, to `init`. -/
theorem process_lifecycle_oneChild :
    ∃ s, runFrom tableStep (tableInit 2) oneChild = some s ∧ s.reaped = [(0, 1)] ∧
      (s.reaped.map Prod.snd).Nodup :=
  ⟨_, rfl, rfl, (process_lifecycle oneChild _ rfl).2.2.1⟩

end Xv6.Proc
