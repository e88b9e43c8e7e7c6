import Xv6.Proc.Lifecycle

/-!
# Processes - Kill

`kill` looks for the first entry with the given pid and does not look at its state.
Entries that are not in use keep a pid: zero at the start and after `wait` or
`exitkth`, and the last pid given out after a `fork` that failed.  And only `wait`
clears `killed`.  So `kill` may hit an entry that is not in use, and a process made
later in that entry starts out killed.

Main results:

- Theorem {lit}`kill_exact`: `kill` does what it should when the first entry with the
  pid is in use.
- Theorem {lit}`Clean.step`: as long as `kill` hits no entry that is free or being made,
  and no killed kernel thread exits, such entries are not marked as killed.
- Theorem {lit}`kill_hits_named`: then `kill` is exact, and `fork` makes processes that
  are not killed.
-/

namespace Xv6.Proc

open Foundations

section Kill

variable {n : Nat} {s t : Table n}

/-! ## One call -/

/-- `kill(pid)` succeeds exactly if an entry in use has that pid; it marks such an entry
and changes no other one; it changes nothing when it fails. -/
def KillExact (s : Table n) (pid : Int32) : Prop :=
  ((s.kill pid).1 = 0 ↔ ∃ i, (s.slot i).state ≠ .unused ∧ (s.slot i).pid = pid) ∧
  ((s.kill pid).1 = 0 → ∃ i, (s.slot i).state ≠ .unused ∧ (s.slot i).pid = pid ∧
    ((s.kill pid).2.slot i).killed = true ∧ ∀ j, j ≠ i → (s.kill pid).2.slot j = s.slot j) ∧
  ((s.kill pid).1 ≠ 0 → s.kill pid = (-1, s))

/-- The first entry with this pid, if there is one, is in use and past `EMBRYO`. -/
def FirstInUse (s : Table n) (pid : Int32) : Prop :=
  ∀ i, (s.find fun x => x.pid = pid) = some i →
    (s.slot i).state ≠ .unused ∧ (s.slot i).state ≠ .embryo

instance (s : Table n) (pid : Int32) : Decidable (FirstInUse s pid) :=
  inferInstanceAs (Decidable (∀ _, _ → _))

theorem kill_exact {pid : Int32} (h : FirstInUse s pid) : KillExact s pid := by
  unfold KillExact Table.kill
  cases hfind : s.find fun x => x.pid = pid with
  | none =>
    have hnone : ∀ i, (s.slot i).pid ≠ pid := by
      intro i
      have hi := s.find_none hfind i
      simpa using hi
    refine ⟨?_, nofun, fun _ => rfl⟩
    constructor
    · nofun
    · rintro ⟨i, _, hi⟩
      exact absurd hi (hnone i)
  | some i =>
    have hpid : (s.slot i).pid = pid := by
      have hi := s.find_some i hfind
      simpa using hi
    refine ⟨?_, ?_, fun hbad => absurd rfl hbad⟩
    · exact ⟨fun _ => ⟨i, (h i hfind).1, hpid⟩, fun _ => rfl⟩
    · intro _
      refine ⟨i, (h i hfind).1, hpid, ?_, ?_⟩
      · simp only [Table.set_self]
      · intro j hj
        exact Table.set_of_ne _ _ _ hj

/-! ## Entries that are not in use -/

/-- An entry that is free or being made. -/
def Slot.Dormant (x : Slot n) : Prop :=
  x.state = .unused ∨ x.state = .embryo

/-- No entry that is free or being made is marked as killed. -/
def Clean (s : Table n) : Prop :=
  ∀ i, (s.slot i).Dormant → (s.slot i).killed = false

/-- No `kill` hits an entry that is free or being made, and no killed kernel thread
exits. -/
def Fits (s : Table n) : TableAction n → Prop
  | .kill pid => FirstInUse s pid
  | .exitkth i => (s.slot i).killed = false
  | _ => True

instance (s : Table n) (a : TableAction n) : Decidable (Fits s a) := by
  unfold Fits
  cases a <;> infer_instance

theorem tableInit_clean (n : Nat) : Clean (tableInit n) :=
  fun _ _ => rfl

/-- Entries whose state and mark stay. -/
theorem Clean.mono (h : Clean s)
    (hslot : ∀ i, (t.slot i).Dormant → (s.slot i).Dormant ∧
      (t.slot i).killed = (s.slot i).killed) : Clean t := by
  intro i hi
  rcases hslot i hi with ⟨hdormant, hkilled⟩
  rw [hkilled]
  exact h i hdormant

theorem Clean.update (h : Clean s) {c : Fin n} {x : Slot n}
    (hx : x.Dormant → x.killed = false) (hslot : t.slot = Function.update s.slot c x) :
    Clean t := by
  intro i hi
  rw [hslot] at hi ⊢
  by_cases hic : i = c
  · rw [hic, Function.update_self] at hi ⊢
    exact hx hi
  · rw [Function.update_of_ne hic] at hi ⊢
    exact h i hi

/-- A process that is neither free nor being made. -/
theorem Slot.not_dormant {x : Slot n} (h : x.state ≠ .unused ∧ x.state ≠ .embryo) :
    ¬x.Dormant :=
  fun hbad => hbad.elim h.1 h.2

/-- An entry becomes runnable, running, asleep or a zombie. -/
theorem Clean.awake (h : Clean s) {c : Fin n} {x : Slot n}
    (hslot : t.slot = Function.update s.slot c x)
    (hx : x.state ≠ .unused ∧ x.state ≠ .embryo) : Clean t :=
  h.update (fun hbad => absurd hbad (Slot.not_dormant hx)) hslot

theorem Clean.goto (h : Clean s) (i : Fin n) (pc : Pc n) : Clean (s.goto i pc) :=
  h.update (x := { s.slot i with pc := pc }) (h i) rfl

theorem Clean.wakeup1 (h : Clean s) (chan : Chan n) : Clean (s.wakeup1 chan) := by
  refine h.mono ?_
  intro i hi
  by_cases hsleep : (s.slot i).state = .sleeping ∧ (s.slot i).chan = some chan
  · have hslot : (s.wakeup1 chan).slot i = { s.slot i with state := .runnable } := if_pos hsleep
    rw [hslot] at hi
    exact absurd hi (Slot.not_dormant ⟨nofun, nofun⟩)
  · have hslot : (s.wakeup1 chan).slot i = s.slot i := if_neg hsleep
    rw [hslot] at hi ⊢
    exact ⟨hi, rfl⟩

theorem Clean.wakeupProc (h : Clean s) (q : Option (Fin n)) : Clean (s.wakeupProc q) := by
  cases q with
  | none => exact h
  | some q => exact h.wakeup1 _

theorem Clean.reparent (h : Clean s) (i : Fin n) : Clean (s.reparent i) := by
  refine h.mono ?_
  intro c hc
  rw [Slot.Dormant, (s.reparent_fields i c).1] at hc
  refine ⟨hc, ?_⟩
  unfold Table.reparent
  simp only
  split
  · rfl
  · rfl

theorem Clean.exit (h : Clean s) (i : Fin n) : Clean (s.exit i) := by
  have hwakes : Clean (s.exitWakes i) := by
    unfold Table.exitWakes
    simp only
    split
    · exact (h.wakeupProc _).wakeupProc _
    · exact h.wakeupProc _
  exact (hwakes.reparent i).awake (s.exit_slot i) ⟨nofun, nofun⟩

theorem Clean.resume (h : Clean s) (i : Fin n) : Clean (s.resume i) :=
  h.awake rfl ⟨nofun, nofun⟩

theorem Clean.waitScan (h : Clean s) (i : Fin n) : Clean (s.waitScan i) := by
  rcases s.waitScan_cases i with ⟨c, _, _, heq⟩ | ⟨_, heq | heq⟩
  · have hreap : Clean (s.reap i c) :=
      h.update (x := { s.slot c with pid := 0, parent := none, killed := false, state := .unused })
        (fun _ => rfl) rfl
    rw [heq]
    exact hreap.resume i
  · rw [heq]
    exact h.resume i
  · rw [heq]
    exact h.awake rfl ⟨nofun, nofun⟩

theorem Clean.alloc (h : Clean s) {c : Fin n} (hc : s.unused = some c) (pc : Pc n) :
    Clean (s.alloc c pc) := by
  refine h.update (c := c) ?_ rfl
  intro _
  exact h c (Or.inl (Table.unused_some hc))

theorem Clean.kill (h : Clean s) {pid : Int32} (hfits : FirstInUse s pid) :
    Clean (s.kill pid).2 := by
  unfold Table.kill
  cases hfind : s.find fun x => x.pid = pid with
  | none => exact h
  | some i =>
    have hstate := hfits i hfind
    refine h.update ?_ rfl
    intro hbad
    by_cases hsleep : (s.slot i).state = .sleeping
    · simp [Slot.Dormant, hsleep] at hbad
    · simp [Slot.Dormant, hsleep, hstate.1, hstate.2] at hbad

theorem Clean.step (h : Clean s) (hinv : TableInv s) {a : TableAction n} (hfits : Fits s a)
    (hstep : tableStep s a = some t) : Clean t := by
  cases a with
  | userinit =>
    simp only [tableStep, Option.ite_none_right_eq_some, Option.map_eq_some_iff] at hstep
    rcases hstep with ⟨_, c, hc, rfl⟩
    exact h.alloc hc .first
  | userinitDone c | startkthDone c | sleep i k | yield i =>
    simp only [tableStep, Option.ite_none_right_eq_some, Option.some.injEq] at hstep
    rcases hstep with ⟨_, rfl⟩
    exact h.awake rfl ⟨by simp, by simp⟩
  | startkth =>
    simp only [tableStep, Option.map_eq_some_iff] at hstep
    rcases hstep with ⟨c, hc, rfl⟩
    exact h.alloc hc .kthread
  | startkthFail c =>
    simp only [tableStep, Option.ite_none_right_eq_some, Option.some.injEq] at hstep
    rcases hstep with ⟨⟨hembryo, _⟩, rfl⟩
    exact h.update (x := { s.slot c with state := .unused }) (fun _ => h c (Or.inr hembryo)) rfl
  | exitkth i =>
    simp only [tableStep, Option.ite_none_right_eq_some, Option.some.injEq] at hstep
    rcases hstep with ⟨_, rfl⟩
    exact h.update (x := { s.slot i with pid := 0, state := .unused }) (fun _ => hfits) rfl
  | fork i =>
    simp only [tableStep, Option.ite_none_right_eq_some, Option.map_eq_some_iff] at hstep
    rcases hstep with ⟨_, c, hc, rfl⟩
    exact (h.alloc hc _).goto i _
  | forkFail i =>
    simp only [tableStep, Option.map_eq_some_iff] at hstep
    rcases hstep with ⟨c, hc, rfl⟩
    have hembryo := (hinv.making i c (Or.inl (Table.forkingChild_some hc))).2.1
    refine Clean.goto (h.update (x := { s.slot c with state := .unused }) ?_ rfl) i _
    exact fun _ => h c (Or.inr hembryo)
  | forkParent i =>
    simp only [tableStep, Option.map_eq_some_iff] at hstep
    rcases hstep with ⟨c, _, rfl⟩
    exact Clean.goto (h.update (x := { s.slot c with parent := some i }) (h c) rfl) i _
  | forkDone i =>
    simp only [tableStep, Option.map_eq_some_iff] at hstep
    rcases hstep with ⟨c, _, rfl⟩
    have hstart : Clean (s.start c (s.slot c).isProcess) := h.awake rfl ⟨by simp, by simp⟩
    exact hstart.goto i _
  | exit i =>
    simp only [tableStep, Option.ite_none_right_eq_some, Option.some.injEq] at hstep
    rcases hstep with ⟨_, rfl⟩
    exact h.exit i
  | wait i =>
    simp only [tableStep, Option.ite_none_right_eq_some, Option.some.injEq] at hstep
    rcases hstep with ⟨_, rfl⟩
    exact h.waitScan i
  | kill pid =>
    simp only [tableStep, Option.some.injEq] at hstep
    rw [← hstep]
    exact h.kill hfits
  | wakeup k =>
    simp only [tableStep, Option.some.injEq] at hstep
    rw [← hstep]
    exact h.wakeup1 _
  | schedule i =>
    simp only [tableStep, Option.ite_none_right_eq_some, Option.some.injEq] at hstep
    rcases hstep with ⟨_, rfl⟩
    unfold Table.schedule
    split
    · exact h.waitScan i
    · exact h.awake rfl ⟨by simp, by simp⟩

end Kill

/-! ## Runs -/

/-- Every `kill` is exact, and every process that `fork` makes `RUNNABLE` is not killed. -/
def HitsNamed {n : Nat} (s : Table n) (a : TableAction n) : Prop :=
  (∀ pid, a = .kill pid → KillExact s pid) ∧
  ∀ i c t, a = .forkDone i → s.forkedChild i = some c → tableStep s a = some t →
    (t.slot c).state = .runnable ∧ (t.slot c).killed = false

/-- In every run in which no `kill` hits an entry that is free or being made and no killed
kernel thread exits, every `kill` is exact and every process that `fork` makes starts out
not killed. -/
theorem kill_hits_named {n : Nat} (as : List (TableAction n))
    (hmeets : Meets tableStep Fits (tableInit n) as) :
    Meets tableStep HitsNamed (tableInit n) as := by
  suffices hgen : ∀ s : Table n, TableInv s ∧ History s ∧ Clean s →
      Meets tableStep Fits s as → Meets tableStep HitsNamed s as from
    hgen _ ⟨tableInit_inv n, tableInit_history n, tableInit_clean n⟩ hmeets
  clear hmeets
  induction as with
  | nil => exact fun _ _ _ => trivial
  | cons a as ih =>
    rintro s ⟨hinv, hhistory, hclean⟩ hmeets t hstep
    rcases hmeets t hstep with ⟨hfits, hrest⟩
    have houtcome := hinv.step hhistory hstep
    have hclean' := hclean.step hinv hfits hstep
    refine ⟨⟨?_, ?_⟩, ih t ⟨houtcome.table, houtcome.history, hclean'⟩ hrest⟩
    · rintro pid rfl
      exact kill_exact hfits
    · rintro i c u rfl hc hu
      have hpc := Table.forkedChild_some hc
      have hembryo := (hinv.making i c (Or.inr hpc)).2.1
      have hci := (hinv.making_ne (Or.inr hpc)).symm
      simp only [tableStep, hc, Option.map_some, Option.some.injEq] at hu
      rw [← hu, Table.goto, Table.set_of_ne _ _ _ hci, Table.start, Table.set_self]
      exact ⟨rfl, hclean c (Or.inr hembryo)⟩

theorem neZero_two : NeZero 2 :=
  ⟨Nat.succ_ne_zero 1⟩

attribute [local instance] neZero_two

/-- `init` forks, kills the child, and waits for it. -/
def killChild : List (TableAction 2) :=
  [.userinit, .userinitDone 0, .schedule 0, .fork 0, .forkParent 0, .forkDone 0, .kill 2,
    .wait 0, .schedule 1, .exit 1, .schedule 0]

/-- This run meets the condition and its `kill` marks the child. -/
theorem kill_hits_named_killChild :
    Meets tableStep Fits (tableInit 2) killChild ∧
      Meets tableStep HitsNamed (tableInit 2) killChild :=
  have hmeets : Meets tableStep Fits (tableInit 2) killChild := by decide +kernel
  ⟨hmeets, kill_hits_named killChild hmeets⟩

/-- `init` calls `kill(0)` and then `fork`. -/
def killZero : List (TableAction 2) :=
  [.userinit, .userinitDone 0, .schedule 0, .kill 0, .fork 0, .forkParent 0, .forkDone 0]

/-- `kill(0)` succeeds although no entry in use has pid 0, and the child that `fork` then
makes `RUNNABLE` is killed. -/
theorem killZero_hits_unused :
    (∃ s, runFrom tableStep (tableInit 2) (killZero.take 3) = some s ∧ (s.kill 0).1 = 0 ∧
      ∀ i, (s.slot i).state ≠ .unused → (s.slot i).pid ≠ 0) ∧
    ∃ s, runFrom tableStep (tableInit 2) killZero = some s ∧
      (s.slot 1).state = .runnable ∧ (s.slot 1).killed = true :=
  ⟨⟨_, rfl, rfl, by decide⟩, _, rfl, rfl, rfl⟩

end Xv6.Proc
