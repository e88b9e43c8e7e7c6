import Xv6.Foundations.Runs

/-!
# Asynchronous reads - The task queue

The array `aio_tasks`, the counter `num_tasks` and the two pieces of code that
work on them: the append of `sys_aread`, run by any process under `aio_lock`, and
the loop of `aread_kth`, which executes the task in slot 0 without the lock and
removes it under the lock.  A state records the program point of every process
in its append and of the kernel thread in its loop; an interleaving is a list of
actions.  Each store to a field of the new slot is a step of its own.

A store behind the last slot of the array, or a `memmove` that reaches behind
it, sets {lit}`overrun` and changes no slot: the code gives no guarantee from
then on.

Main results:

- Theorem {lit}`Inv.step`: the invariant relating array, counter and program
  points.
- Theorem {lit}`numTasks_le_iff`: the array is never overrun exactly when no
  append is carried out with all slots in use.
- Theorem {lit}`queue_fifo`: the tasks executed are a prefix of those accepted,
  and the rest is still queued in order.
-/

namespace Xv6.Aio

open Foundations

/-- `struct aio_task`.  Pointers are addresses; `pgdir` and `ip` identify a page
table and an inode-cache slot. -/
structure AioTask where
  status : Nat
  pgdir : Nat
  ip : Nat
  buffer : Nat
  offset : Int
  nbytes : Int
deriving DecidableEq

/-- Length of `aio_tasks`. -/
def ntasks : Nat := 64

@[simp]
theorem ntasks_eq : ntasks = 64 :=
  rfl

/-- The `k`-th of the six field assignments of the append. -/
def AioTask.putField (t : AioTask) : Nat → AioTask → AioTask
  | 0, slot => { slot with status := t.status }
  | 1, slot => { slot with pgdir := t.pgdir }
  | 2, slot => { slot with ip := t.ip }
  | 3, slot => { slot with buffer := t.buffer }
  | 4, slot => { slot with offset := t.offset }
  | _, slot => { slot with nbytes := t.nbytes }

/-- The first `k` fields of a slot are those of `t`. -/
def AioTask.Agrees (t : AioTask) (k : Nat) (slot : AioTask) : Prop :=
  (0 < k → slot.status = t.status) ∧ (1 < k → slot.pgdir = t.pgdir) ∧
    (2 < k → slot.ip = t.ip) ∧ (3 < k → slot.buffer = t.buffer) ∧
    (4 < k → slot.offset = t.offset) ∧ (5 < k → slot.nbytes = t.nbytes)

theorem AioTask.agrees_zero (t slot : AioTask) : t.Agrees 0 slot := by
  simp [AioTask.Agrees]

theorem AioTask.agrees_putField {t slot : AioTask} {k : Nat} (hk : k < 6)
    (h : t.Agrees k slot) : t.Agrees (k + 1) (t.putField k slot) := by
  unfold AioTask.Agrees at *
  interval_cases k <;> simp_all [AioTask.putField]

/-- A slot that received all six fields holds the task. -/
theorem AioTask.eq_of_agrees {t slot : AioTask} (h : t.Agrees 6 slot) : slot = t := by
  cases t
  cases slot
  simpa [AioTask.Agrees] using h

/-- Program point of a process in the append of `sys_aread`. -/
inductive ProducerPc
  /-- Not in the append section. -/
  | outside
  /-- Holds `aio_lock`; the first `k` fields have been stored. -/
  | storing (t : AioTask) (k : Nat)
  /-- `num_tasks` has been incremented. -/
  | counted
deriving DecidableEq

/-- Program point of `aread_kth`. -/
inductive KthPc
  /-- About to test `num_tasks`. -/
  | test
  /-- Inside `aread_consume_one_task(&aio_tasks[0])`. -/
  | running
  /-- The task is done; about to take `aio_lock`. -/
  | done
  /-- Holds `aio_lock`; about to call `memmove`. -/
  | locked
  /-- The array has been shifted. -/
  | shifted
  /-- `num_tasks` has been decremented. -/
  | counted
  /-- Waiting for the next tick. -/
  | asleep
deriving DecidableEq

/-- Holder of `aio_lock`. -/
inductive Agent
  | process (p : Nat)
  | kth
deriving DecidableEq

/-- Queue state.  `accepted`, `executed` and `reads` are the history: tasks in
the order counted, tasks in the order executed, and each look of the running
task at slot 0 with the number of tasks executed before it. -/
structure QueueState where
  aioTasks : Nat → AioTask
  numTasks : Int
  aioLock : Option Agent
  producer : Nat → ProducerPc
  kth : KthPc
  accepted : List AioTask
  executed : List AioTask
  reads : List (Nat × AioTask)
  overrun : Bool

/-- One action of a process in its append or of the kernel thread. -/
inductive Action
  | acquire (p : Nat) (t : AioTask)
  | store (p : Nat)
  | count (p : Nat)
  | release (p : Nat)
  | kthTest
  | kthLook
  | kthDone
  | kthAcquire
  | kthShift
  | kthCount
  | kthRelease
  | kthTick

/-- Move the process `p` to a program point. -/
def QueueState.setPc (s : QueueState) (p : Nat) (pc : ProducerPc) : QueueState :=
  { s with producer := Function.update s.producer p pc }

/-- `acquire(&aio_lock)` and `release(&aio_lock)`. -/
def QueueState.setLock (s : QueueState) (holder : Option Agent) : QueueState :=
  { s with aioLock := holder }

/-- `num_tasks++` for the task `t`. -/
def QueueState.accept (s : QueueState) (t : AioTask) : QueueState :=
  { s with numTasks := s.numTasks + 1, accepted := s.accepted ++ [t] }

/-- `aio_tasks[num_tasks].field = ...`, the `k`-th assignment. -/
def QueueState.putSlot (s : QueueState) (t : AioTask) (k : Nat) : QueueState :=
  if 0 ≤ s.numTasks ∧ s.numTasks < ntasks then
    let i := s.numTasks.toNat
    { s with aioTasks := Function.update s.aioTasks i (t.putField k (s.aioTasks i)) }
  else { s with overrun := true }

/-- `memmove(aio_tasks, aio_tasks+1, sizeof(aio_tasks[0]) * (num_tasks-1))`.  It
stays inside the array when `1 ≤ num_tasks ≤ 64`. -/
def QueueState.shift (s : QueueState) : QueueState :=
  if 1 ≤ s.numTasks ∧ s.numTasks ≤ ntasks then
    { s with aioTasks := fun i =>
        if i < s.numTasks.toNat - 1 then s.aioTasks (i + 1) else s.aioTasks i }
  else { s with overrun := true }

/-- Steps of a process in the append section of `sys_aread`. -/
def producerStep (s : QueueState) (p : Nat) : ProducerPc → Action → Option QueueState
  | .outside, .acquire _ t =>
    if s.aioLock = none then
      some ((s.setPc p (.storing t 0)).setLock (some (.process p)))
    else none
  | .storing t k, .store _ =>
    if k < 6 then some ((s.putSlot t k).setPc p (.storing t (k + 1))) else none
  | .storing t k, .count _ =>
    if k = 6 then some ((s.accept t).setPc p .counted) else none
  | .counted, .release _ =>
    some ((s.setPc p .outside).setLock none)
  | _, _ => none

/-- Steps of the loop of `aread_kth`. -/
def kthStep (s : QueueState) : KthPc → Action → Option QueueState
  | .test, .kthTest =>
    if s.numTasks = 0 then some { s with kth := .asleep }
    else some { s with kth := .running }
  | .running, .kthLook =>
    some { s with reads := s.reads ++ [(s.executed.length, s.aioTasks 0)] }
  | .running, .kthDone =>
    some { s with kth := .done, executed := s.executed ++ [s.aioTasks 0] }
  | .done, .kthAcquire =>
    if s.aioLock = none then some { s with kth := .locked, aioLock := some .kth }
    else none
  | .locked, .kthShift => some { s.shift with kth := .shifted }
  | .shifted, .kthCount => some { s with kth := .counted, numTasks := s.numTasks - 1 }
  | .counted, .kthRelease => some { s with kth := .test, aioLock := none }
  | .asleep, .kthTick => some { s with kth := .test }
  | _, _ => none

/-- One step of the system. -/
def step (s : QueueState) : Action → Option QueueState
  | .acquire p t => producerStep s p (s.producer p) (.acquire p t)
  | .store p => producerStep s p (s.producer p) (.store p)
  | .count p => producerStep s p (s.producer p) (.count p)
  | .release p => producerStep s p (s.producer p) (.release p)
  | a => kthStep s s.kth a

/-- Initial state: the array is zero-initialised and nobody works on it. -/
def init : QueueState where
  aioTasks _ := ⟨0, 0, 0, 0, 0, 0⟩
  numTasks := 0
  aioLock := none
  producer _ := .outside
  kth := .test
  accepted := []
  executed := []
  reads := []
  overrun := false

/-! ## The invariant -/

/-- The first `n` slots. -/
def QueueState.slots (s : QueueState) (n : Nat) : List AioTask :=
  (List.range n).map s.aioTasks

/-- The accepted tasks not yet executed, as the array holds them.  Between the
end of a task and its removal slot 0 is stale; between the shift and the
decrement the last counted slot is. -/
def QueueState.pending (s : QueueState) : List AioTask :=
  match s.kth with
  | .done | .locked => (s.slots s.numTasks.toNat).tail
  | .shifted => s.slots (s.numTasks.toNat - 1)
  | _ => s.slots s.numTasks.toNat

/-- The kernel thread is working on slot 0. -/
def KthPc.Busy : KthPc → Prop
  | .running | .done | .locked | .shifted => True
  | _ => False

/-- The kernel thread holds `aio_lock`. -/
def KthPc.Holds : KthPc → Prop
  | .locked | .shifted | .counted => True
  | _ => False

/-- Invariant of the queue while no append finds all slots in use. -/
structure Inv (s : QueueState) : Prop where
  inside : s.overrun = false
  nonneg : 0 ≤ s.numTasks
  bound : s.numTasks ≤ 64
  busy : s.kth.Busy → 1 ≤ s.numTasks
  kthLock : s.kth.Holds → s.aioLock = some .kth
  procLock : ∀ p, s.producer p ≠ .outside → s.aioLock = some (.process p)
  storing : ∀ p t k, s.producer p = .storing t k →
    k ≤ 6 ∧ (0 < k → s.numTasks < 64) ∧ t.Agrees k (s.aioTasks s.numTasks.toNat)
  split : s.accepted = s.executed ++ s.pending
  reads : ∀ r ∈ s.reads, s.accepted[r.1]? = some r.2

theorem init_inv : Inv init := by
  constructor <;> simp [init, KthPc.Busy, KthPc.Holds, QueueState.pending, QueueState.slots]

/-! ## Slot lists -/

theorem QueueState.slots_congr {s t : QueueState} {n : Nat}
    (h : ∀ i < n, s.aioTasks i = t.aioTasks i) : s.slots n = t.slots n := by
  apply List.map_congr_left
  intro i hi
  exact h i (List.mem_range.mp hi)

theorem QueueState.slots_succ (s : QueueState) (n : Nat) :
    s.slots (n + 1) = s.slots n ++ [s.aioTasks n] := by
  simp [QueueState.slots, List.range_succ]

theorem QueueState.slots_tail (s : QueueState) (n : Nat) :
    (s.slots n).tail = (List.range (n - 1)).map fun i => s.aioTasks (i + 1) := by
  cases n with
  | zero => rfl
  | succ n => simp [QueueState.slots, List.range_succ_eq_map]

theorem QueueState.slots_eq_cons (s : QueueState) {n : Nat} (h : 1 ≤ n) :
    s.slots n = s.aioTasks 0 :: (s.slots n).tail := by
  cases n with
  | zero => omega
  | succ n => simp [QueueState.slots, List.range_succ_eq_map]

/-- Only the slots below the counter matter for the pending tasks. -/
theorem QueueState.pending_congr {s t : QueueState} (hkth : t.kth = s.kth)
    (hnum : t.numTasks = s.numTasks)
    (h : ∀ i < s.numTasks.toNat, t.aioTasks i = s.aioTasks i) : t.pending = s.pending := by
  have hall : t.slots s.numTasks.toNat = s.slots s.numTasks.toNat :=
    QueueState.slots_congr h
  have hpred : t.slots (s.numTasks.toNat - 1) = s.slots (s.numTasks.toNat - 1) :=
    QueueState.slots_congr fun i hi => h i (by omega)
  unfold QueueState.pending
  rw [hkth, hnum, hall, hpred]

/-- Counting one more task appends its slot to the pending tasks. -/
theorem QueueState.pending_count {s t : QueueState} (hkth : t.kth = s.kth)
    (hnum : t.numTasks = s.numTasks + 1) (htasks : t.aioTasks = s.aioTasks)
    (hnonneg : 0 ≤ s.numTasks) (hholds : ¬s.kth.Holds)
    (hbusy : s.kth.Busy → 1 ≤ s.numTasks) :
    t.pending = s.pending ++ [s.aioTasks s.numTasks.toNat] := by
  have hsucc : t.slots t.numTasks.toNat =
      s.slots s.numTasks.toNat ++ [s.aioTasks s.numTasks.toNat] := by
    have hn : t.numTasks.toNat = s.numTasks.toNat + 1 := by omega
    rw [hn, t.slots_succ, htasks]
    rw [QueueState.slots_congr (t := s) fun i _ => congrFun htasks i]
  unfold QueueState.pending
  rw [hkth]
  cases hk : s.kth with
  | test | running | asleep => exact hsucc
  | done =>
    have hone := hbusy (by simp [hk, KthPc.Busy])
    -- slot 0 is stale but present, so the new slot lands in the tail
    simp only
    rw [hsucc, s.slots_eq_cons (n := s.numTasks.toNat) (by omega)]
    rfl
  | locked | shifted | counted => simp [hk, KthPc.Holds] at hholds

/-! ## Steps keep the invariant -/

section Steps

variable {s t : QueueState} {p : Nat}

/-- Condition under which an append has a slot to write to. -/
def AppendRoom (s : QueueState) : Action → Prop
  | .store _ => s.numTasks < 64
  | _ => True

instance (s : QueueState) (a : Action) : Decidable (AppendRoom s a) :=
  match a with
  | .store _ => inferInstanceAs (Decidable (s.numTasks < 64))
  | .acquire _ _ | .count _ | .release _ | .kthTest | .kthLook | .kthDone | .kthAcquire
  | .kthShift | .kthCount | .kthRelease | .kthTick => isTrue trivial

theorem Inv.kth_free (h : Inv s) (hlock : s.aioLock ≠ some .kth) : ¬s.kth.Holds :=
  fun hholds => hlock (h.kthLock hholds)

theorem Inv.proc_free (h : Inv s) (hlock : ∀ q, s.aioLock ≠ some (.process q)) (q : Nat) :
    s.producer q = .outside := by
  by_contra hq
  exact hlock q (h.procLock q hq)

/-- While `p` holds the lock no other process is in its append. -/
theorem Inv.others_outside (h : Inv s) (hlock : s.aioLock = some (.process p)) {q : Nat}
    (hq : q ≠ p) : s.producer q = .outside := by
  by_contra hne
  have hown := h.procLock q hne
  rw [hlock] at hown
  cases hown
  exact hq rfl

/-- A process takes the lock. -/
theorem Inv.acquire (h : Inv s) (a : AioTask) (hlock : s.aioLock = none) :
    Inv ((s.setPc p (.storing a 0)).setLock (some (.process p))) := by
  have hfree : ¬s.kth.Holds := h.kth_free (by simp [hlock])
  have houtside := h.proc_free (by simp [hlock])
  constructor
  · exact h.inside
  · exact h.nonneg
  · exact h.bound
  · exact h.busy
  · exact fun hholds => absurd hholds hfree
  · intro q hq
    by_cases hqp : q = p
    · rw [hqp]
      rfl
    · simp [QueueState.setLock, QueueState.setPc, hqp, houtside q] at hq
  · intro q b k hq
    by_cases hqp : q = p
    · subst hqp
      simp only [QueueState.setLock, QueueState.setPc, Function.update_self,
        ProducerPc.storing.injEq] at hq
      rcases hq with ⟨rfl, rfl⟩
      exact ⟨by omega, by omega, a.agrees_zero _⟩
    · simp [QueueState.setLock, QueueState.setPc, hqp, houtside q] at hq
  · exact h.split
  · exact h.reads

/-- It stores one field of its task behind the last one. -/
theorem Inv.store (h : Inv s) {a : AioTask} {k : Nat} (hpc : s.producer p = .storing a k)
    (hk : k < 6) (hroom : s.numTasks < 64) :
    Inv ((s.putSlot a k).setPc p (.storing a (k + 1))) := by
  have hlock := h.procLock p (by simp [hpc])
  set u := Function.update s.aioTasks s.numTasks.toNat
    (a.putField k (s.aioTasks s.numTasks.toNat)) with hu
  have hput : s.putSlot a k = { s with aioTasks := u } := by
    simp [QueueState.putSlot, h.nonneg, hroom, hu]
  rw [hput]
  constructor
  · exact h.inside
  · exact h.nonneg
  · exact h.bound
  · exact h.busy
  · exact h.kthLock
  · intro q hq
    by_cases hqp : q = p
    · subst hqp
      exact hlock
    · exact absurd (h.others_outside hlock hqp) (by simpa [QueueState.setPc, hqp] using hq)
  · intro q b j hq
    by_cases hqp : q = p
    · subst hqp
      simp only [QueueState.setPc, Function.update_self, ProducerPc.storing.injEq] at hq
      rcases hq with ⟨rfl, rfl⟩
      have hagrees := (h.storing q a k hpc).2.2
      refine ⟨by omega, fun _ => hroom, ?_⟩
      simpa [QueueState.setPc, hu] using AioTask.agrees_putField hk hagrees
    · have houtside := h.others_outside hlock hqp
      simp [QueueState.setPc, hqp, houtside] at hq
  · -- the new slot lies behind the counted ones
    have hpending := QueueState.pending_congr (s := s) (t := { s with aioTasks := u }) rfl rfl
      (fun i hi => Function.update_of_ne (by omega) _ _)
    exact h.split.trans (congrArg _ hpending.symm)
  · exact h.reads

/-- It counts the task, which is now in the queue. -/
theorem Inv.count (h : Inv s) {a : AioTask} (hpc : s.producer p = .storing a 6) :
    Inv ((s.accept a).setPc p .counted) := by
  have hlock := h.procLock p (by simp [hpc])
  rcases h.storing p a 6 hpc with ⟨-, hroom, hagrees⟩
  have hslot := AioTask.eq_of_agrees hagrees
  have hnum := h.nonneg
  constructor
  · exact h.inside
  · change 0 ≤ s.numTasks + 1
    omega
  · have := hroom (by omega)
    change s.numTasks + 1 ≤ 64
    omega
  · intro hbusy
    have := h.busy hbusy
    change 1 ≤ s.numTasks + 1
    omega
  · exact h.kthLock
  · intro q hq
    by_cases hqp : q = p
    · subst hqp
      exact hlock
    · exact absurd (h.others_outside hlock hqp)
        (by simpa [QueueState.accept, QueueState.setPc, hqp] using hq)
  · intro q b j hq
    by_cases hqp : q = p
    · simp [QueueState.setPc, hqp] at hq
    · have houtside := h.others_outside hlock hqp
      simp [QueueState.accept, QueueState.setPc, hqp, houtside] at hq
  · have hpending := QueueState.pending_count (s := s) (t := (s.accept a).setPc p .counted)
      rfl rfl rfl hnum (h.kth_free (by simp [hlock])) h.busy
    change s.accepted ++ [a] = s.executed ++ ((s.accept a).setPc p .counted).pending
    rw [hpending, hslot, ← List.append_assoc, ← h.split]
  · intro r hr
    have hold := h.reads r hr
    have hlt := (List.getElem?_eq_some_iff.mp hold).1
    exact (List.getElem?_append_left hlt).trans hold

/-- It releases the lock. -/
theorem Inv.release (h : Inv s) (hpc : s.producer p = .counted) :
    Inv ((s.setPc p .outside).setLock none) := by
  have hlock := h.procLock p (by simp [hpc])
  have houtside : ∀ q, (s.setPc p .outside).producer q = .outside := by
    intro q
    by_cases hqp : q = p
    · simp [QueueState.setPc, hqp]
    · simpa [QueueState.setPc, hqp] using h.others_outside hlock hqp
  constructor
  · exact h.inside
  · exact h.nonneg
  · exact h.bound
  · exact h.busy
  · exact fun hholds => absurd hholds (h.kth_free (by simp [hlock]))
  · exact fun q hq => absurd (houtside q) hq
  · intro q b k hq
    have hq' : (s.setPc p .outside).producer q = .storing b k := hq
    rw [houtside q] at hq'
    contradiction
  · exact h.split
  · exact h.reads

/-- Steps of the kernel thread that only move its program point or the lock keep
the invariant, as long as the array facts do not depend on where it is. -/
theorem Inv.kthMove (h : Inv s) {pc : KthPc} {lock : Option Agent}
    (hbusy : pc.Busy → 1 ≤ s.numTasks) (hholds : pc.Holds → lock = some .kth)
    (hlock : ∀ q, s.producer q ≠ .outside → lock = some (.process q))
    (hpending : ({ s with kth := pc, aioLock := lock } : QueueState).pending = s.pending) :
    Inv { s with kth := pc, aioLock := lock } where
  inside := h.inside
  nonneg := h.nonneg
  bound := h.bound
  busy := hbusy
  kthLock := hholds
  procLock := hlock
  storing := h.storing
  split := by rw [hpending]; exact h.split
  reads := h.reads

/-- The thread finds a task. -/
theorem Inv.kthTest (h : Inv s) (hpc : s.kth = .test) (hnum : s.numTasks ≠ 0) :
    Inv { s with kth := .running } := by
  have hnonneg := h.nonneg
  apply h.kthMove
  · intro _
    omega
  · simp [KthPc.Holds]
  · exact h.procLock
  · simp [QueueState.pending, QueueState.slots, hpc]

theorem Inv.kthIdle (h : Inv s) {pc : KthPc} (hfrom : s.kth = .test ∨ s.kth = .asleep)
    (hto : pc = .test ∨ pc = .asleep) : Inv { s with kth := pc } := by
  apply h.kthMove
  · rcases hto with rfl | rfl <;> simp [KthPc.Busy]
  · rcases hto with rfl | rfl <;> simp [KthPc.Holds]
  · exact h.procLock
  · rcases hfrom with hfrom | hfrom <;> rcases hto with rfl | rfl <;>
      simp [QueueState.pending, QueueState.slots, hfrom]

/-- The running task reads exactly the oldest accepted task not yet executed. -/
theorem Inv.kthLook (h : Inv s) (hpc : s.kth = .running) :
    Inv { s with reads := s.reads ++ [(s.executed.length, s.aioTasks 0)] } := by
  have hone := h.busy (by simp [hpc, KthPc.Busy])
  have hpending : s.pending = s.aioTasks 0 :: (s.slots s.numTasks.toNat).tail := by
    rw [← s.slots_eq_cons (by omega)]
    simp [QueueState.pending, hpc]
  refine { h with reads := ?_ }
  intro r hr
  rcases List.mem_append.mp hr with hr | hr
  · exact h.reads r hr
  · rw [List.mem_singleton] at hr
    subst hr
    change s.accepted[s.executed.length]? = some (s.aioTasks 0)
    rw [h.split, hpending]
    simp

/-- The thread has executed the first task. -/
theorem Inv.kthDone (h : Inv s) (hpc : s.kth = .running) :
    Inv { s with kth := .done, executed := s.executed ++ [s.aioTasks 0] } := by
  have hone := h.busy (by simp [hpc, KthPc.Busy])
  refine { h with busy := fun _ => hone, kthLock := by simp [KthPc.Holds], split := ?_ }
  have hsplit := h.split
  simp only [QueueState.pending, hpc] at hsplit
  rw [s.slots_eq_cons (n := s.numTasks.toNat) (by omega)] at hsplit
  simpa [QueueState.pending, QueueState.slots] using hsplit

theorem Inv.kthAcquire (h : Inv s) (hpc : s.kth = .done) (hlock : s.aioLock = none) :
    Inv { s with kth := .locked, aioLock := some .kth } := by
  have houtside := h.proc_free (by simp [hlock])
  apply h.kthMove
  · exact fun _ => h.busy (by simp [hpc, KthPc.Busy])
  · exact fun _ => rfl
  · exact fun q hq => absurd (houtside q) hq
  · simp [QueueState.pending, QueueState.slots, hpc]

/-- The thread moves all tasks by one place. -/
theorem Inv.kthShift (h : Inv s) (hpc : s.kth = .locked) :
    Inv { s.shift with kth := .shifted } := by
  have hone := h.busy (by simp [hpc, KthPc.Busy])
  have hlock := h.kthLock (by simp [hpc, KthPc.Holds])
  have houtside := h.proc_free (by simp [hlock])
  set u : Nat → AioTask := fun i =>
    if i < s.numTasks.toNat - 1 then s.aioTasks (i + 1) else s.aioTasks i with hu
  have hshift : s.shift = { s with aioTasks := u } := by
    simp [QueueState.shift, hone, h.bound, hu]
  rw [hshift]
  constructor
  · exact h.inside
  · exact h.nonneg
  · exact h.bound
  · exact fun _ => hone
  · exact fun _ => hlock
  · exact h.procLock
  · intro q a k hq
    have hq' : s.producer q = .storing a k := hq
    rw [houtside q] at hq'
    contradiction
  · -- the shifted prefix is the old list without slot 0
    have hslots : (List.range (s.numTasks.toNat - 1)).map u =
        (s.slots s.numTasks.toNat).tail := by
      rw [s.slots_tail]
      apply List.map_congr_left
      intro i hi
      simp [hu, List.mem_range.mp hi]
    have hsplit := h.split
    simp only [QueueState.pending, hpc] at hsplit
    rw [← hslots] at hsplit
    exact hsplit
  · exact h.reads

/-- The first task leaves the queue. -/
theorem Inv.kthCount (h : Inv s) (hpc : s.kth = .shifted) :
    Inv { s with kth := .counted, numTasks := s.numTasks - 1 } := by
  have hone := h.busy (by simp [hpc, KthPc.Busy])
  have hbound := h.bound
  have hlock := h.kthLock (by simp [hpc, KthPc.Holds])
  have houtside := h.proc_free (by simp [hlock])
  constructor
  · exact h.inside
  · change 0 ≤ s.numTasks - 1
    omega
  · change s.numTasks - 1 ≤ 64
    omega
  · simp [KthPc.Busy]
  · exact fun _ => hlock
  · exact h.procLock
  · intro q a k hq
    have hq' : s.producer q = .storing a k := hq
    rw [houtside q] at hq'
    contradiction
  · have hsplit := h.split
    have hpred : (s.numTasks - 1).toNat = s.numTasks.toNat - 1 := by omega
    simp only [QueueState.pending, hpc] at hsplit
    simpa [QueueState.pending, QueueState.slots, hpred] using hsplit
  · exact h.reads

theorem Inv.kthRelease (h : Inv s) (hpc : s.kth = .counted) :
    Inv { s with kth := .test, aioLock := none } := by
  have hlock := h.kthLock (by simp [hpc, KthPc.Holds])
  have houtside := h.proc_free (by simp [hlock])
  apply h.kthMove
  · simp [KthPc.Busy]
  · simp [KthPc.Holds]
  · exact fun q hq => absurd (houtside q) hq
  · simp [QueueState.pending, QueueState.slots, hpc]

/-- Every step of a process keeps the invariant while there is room. -/
theorem Inv.producerStep (h : Inv s) {a : Action} (hroom : AppendRoom s a)
    (hstep : producerStep s p (s.producer p) a = some t) : Inv t := by
  cases hpc : s.producer p with
  | outside =>
    cases a <;> simp only [Aio.producerStep, hpc, reduceCtorEq] at hstep
    case acquire q b =>
      split at hstep <;> rename_i hlock
      · cases hstep
        exact h.acquire b hlock
      · contradiction
  | storing b k =>
    cases a <;> simp only [Aio.producerStep, hpc, reduceCtorEq] at hstep
    case store q =>
      split at hstep <;> rename_i hk
      · cases hstep
        exact h.store hpc hk hroom
      · contradiction
    case count q =>
      split at hstep <;> rename_i hk
      · cases hstep
        subst hk
        exact h.count hpc
      · contradiction
  | counted =>
    cases a <;> simp only [Aio.producerStep, hpc, reduceCtorEq] at hstep
    case release q =>
      cases hstep
      exact h.release hpc

/-- So does every step of the thread. -/
theorem Inv.kthStep (h : Inv s) {a : Action} (hstep : kthStep s s.kth a = some t) :
    Inv t := by
  cases hpc : s.kth <;> cases a <;>
    simp only [Aio.kthStep, hpc, reduceCtorEq, Option.some.injEq] at hstep
  case test.kthTest =>
    split at hstep <;> rename_i hnum
    · cases hstep
      exact h.kthIdle (Or.inl hpc) (Or.inr rfl)
    · cases hstep
      exact h.kthTest hpc hnum
  case running.kthLook =>
    have hnext := h.kthLook hpc
    rw [hpc] at hnext
    exact hstep ▸ hnext
  case running.kthDone => exact hstep ▸ h.kthDone hpc
  case done.kthAcquire =>
    split at hstep <;> rename_i hlock
    · cases hstep
      exact h.kthAcquire hpc hlock
    · contradiction
  case locked.kthShift => exact hstep ▸ h.kthShift hpc
  case shifted.kthCount => exact hstep ▸ h.kthCount hpc
  case counted.kthRelease => exact hstep ▸ h.kthRelease hpc
  case asleep.kthTick => exact hstep ▸ h.kthIdle (Or.inr hpc) (Or.inl rfl)

/-- Every step that leaves room for appends keeps the invariant. -/
theorem Inv.step (h : Inv s) {a : Action} (hroom : AppendRoom s a)
    (hstep : step s a = some t) : Inv t := by
  cases a with
  | acquire q b => exact h.producerStep (a := .acquire q b) hroom hstep
  | store q => exact h.producerStep (a := .store q) hroom hstep
  | count q => exact h.producerStep (a := .count q) hroom hstep
  | release q => exact h.producerStep (a := .release q) hroom hstep
  | kthTest | kthLook | kthDone | kthAcquire | kthShift | kthCount | kthRelease | kthTick =>
    exact h.kthStep hstep

end Steps

/-! ## The bound on the counter -/

/-- The counter is in range and no access has left the array. -/
def Safe (s : QueueState) : Prop :=
  0 ≤ s.numTasks ∧ s.numTasks ≤ 64 ∧ s.overrun = false

theorem Inv.safe {s : QueueState} (h : Inv s) : Safe s :=
  ⟨h.nonneg, h.bound, h.inside⟩

/-- A store that stays inside the array found a free slot. -/
theorem appendRoom_of_safe {s t : QueueState} {a : Action} (hstep : step s a = some t)
    (hsafe : Safe t) : AppendRoom s a := by
  cases a with
  | store p =>
    cases hpc : s.producer p with
    | outside | counted => simp [step, producerStep, hpc] at hstep
    | storing b k =>
      simp only [step, producerStep, hpc] at hstep
      split at hstep
      · cases hstep
        by_contra hfull
        have hover : (s.putSlot b k).overrun = true := by
          have hout : ¬(0 ≤ s.numTasks ∧ s.numTasks < (ntasks : Nat)) := by
            have hlt : ¬s.numTasks < 64 := hfull
            simp only [ntasks_eq]
            omega
          simp only [QueueState.putSlot, hout, if_false]
        have hinside : (s.putSlot b k).overrun = false := hsafe.2.2
        rw [hover] at hinside
        contradiction
      · contradiction
  | acquire | count | release | kthTest | kthLook | kthDone | kthAcquire | kthShift |
    kthCount | kthRelease | kthTick => trivial

/-- The counter stays within the array, and no access leaves it, in exactly the
interleavings in which no append is carried out while all 64 slots are in use. -/
theorem numTasks_le_iff (as : List Action) :
    AllStates step Safe init as ↔ Meets step AppendRoom init as := by
  constructor
  · exact meets_of_allStates (I := fun _ => True) (fun _ _ _ _ _ => trivial)
      (fun s a t _ hstep hsafe => appendRoom_of_safe hstep hsafe) trivial
  · intro hmeets
    exact allStates_of_meets (fun s hs => Inv.safe hs)
      (fun s a t hs hroom hstep => hs.step hroom hstep) init_inv hmeets

/-- The actions of one complete append of `t` by process `p`. -/
def appendOnce (p : Nat) (t : AioTask) : List Action :=
  .acquire p t :: (List.replicate 6 (.store p) ++ [.count p, .release p])

/-- `n` appends one after the other. -/
def appends (t : AioTask) : Nat → List Action
  | 0 => []
  | n + 1 => appends t n ++ appendOnce 0 t

/-- The stores of an append always go through and leave the counter alone. -/
theorem runFrom_stores {s : QueueState} {p k : Nat} {t : AioTask} (n : Nat)
    (hpc : s.producer p = .storing t k) (hk : k + n ≤ 6) :
    ∃ u, runFrom step s (List.replicate n (.store p)) = some u ∧
      u.producer p = .storing t (k + n) ∧ u.numTasks = s.numTasks := by
  induction n generalizing s k with
  | zero => exact ⟨s, rfl, hpc, rfl⟩
  | succ n ih =>
    have hlt : k < 6 := by omega
    have hstep : step s (.store p) = some ((s.putSlot t k).setPc p (.storing t (k + 1))) := by
      simp [step, producerStep, hpc, hlt]
    have hnum : (s.putSlot t k).numTasks = s.numTasks := by
      unfold QueueState.putSlot
      split <;> rfl
    have hpc' : ((s.putSlot t k).setPc p (.storing t (k + 1))).producer p =
        .storing t (k + 1) := by
      simp [QueueState.setPc]
    rcases ih hpc' (by omega) with ⟨u, hrun, hpcu, hnumu⟩
    refine ⟨u, ?_, ?_, ?_⟩
    · rw [List.replicate_succ]
      exact runFrom_cons.mpr ⟨_, hstep, hrun⟩
    · rw [hpcu, Nat.add_right_comm, Nat.add_assoc]
    · exact hnumu.trans hnum

/-- Nothing stops an append: it goes through and counts one more task. -/
theorem runFrom_appendOnce {s : QueueState} {p : Nat} (t : AioTask)
    (hpc : s.producer p = .outside) (hlock : s.aioLock = none) :
    ∃ u, runFrom step s (appendOnce p t) = some u ∧ u.producer p = .outside ∧
      u.aioLock = none ∧ u.numTasks = s.numTasks + 1 := by
  have hacquire : step s (.acquire p t) =
      some ((s.setPc p (.storing t 0)).setLock (some (.process p))) := by
    simp [step, producerStep, hpc, hlock]
  have hstart : ((s.setPc p (.storing t 0)).setLock (some (.process p))).producer p =
      .storing t 0 := by
    simp [QueueState.setPc, QueueState.setLock]
  rcases runFrom_stores 6 hstart (by omega) with ⟨u, hrun, hpcu, hnum⟩
  have hcount : step u (.count p) = some ((u.accept t).setPc p .counted) := by
    simp [step, producerStep, hpcu]
  have hrelease : step ((u.accept t).setPc p .counted) (.release p) =
      some ((((u.accept t).setPc p .counted).setPc p .outside).setLock none) := by
    simp [step, producerStep, QueueState.setPc]
  refine ⟨(((u.accept t).setPc p .counted).setPc p .outside).setLock none, ?_, ?_, rfl, ?_⟩
  · exact runFrom_cons.mpr ⟨_, hacquire, runFrom_trans hrun
      (runFrom_cons.mpr ⟨_, hcount, runFrom_cons.mpr ⟨_, hrelease, rfl⟩⟩)⟩
  · simp [QueueState.setPc, QueueState.setLock]
  · exact congrArg (· + 1) hnum

/-- After `n` appends the counter is `n`, whatever the size of the array. -/
theorem runFrom_appends (t : AioTask) (n : Nat) :
    ∃ u, runFrom step init (appends t n) = some u ∧ u.producer 0 = .outside ∧
      u.aioLock = none ∧ u.numTasks = n := by
  induction n with
  | zero => exact ⟨init, rfl, rfl, rfl, rfl⟩
  | succ n ih =>
    rcases ih with ⟨u, hrun, hpc, hlock, hnum⟩
    rcases runFrom_appendOnce t hpc hlock with ⟨v, hrun', hpc', hlock', hnum'⟩
    exact ⟨v, runFrom_trans hrun hrun', hpc', hlock', by omega⟩

/-- Sixty-five submissions before the kernel thread runs overflow the array. -/
theorem appends_overflow :
    ¬AllStates step Safe init (appends ⟨0, 0, 0, 0, 0, 8⟩ 65) := by
  intro hall
  rcases runFrom_appends ⟨0, 0, 0, 0, 0, 8⟩ 65 with ⟨u, hrun, -, -, hnum⟩
  have hsafe := (hall.last hrun).2.1
  omega

/-! ## First in, first out -/

/-- The queue is an exactly-once FIFO.  In every interleaving in which no append
is carried out while all slots are in use, the executed tasks are a prefix of the
accepted ones, the others are still in the array in order, and each look of a
running task at slot 0 saw the accepted task whose turn it was. -/
theorem queue_fifo (as : List Action) (s : QueueState)
    (hroom : Meets step AppendRoom init as) (hrun : runFrom step init as = some s) :
    s.executed <+: s.accepted ∧ s.accepted = s.executed ++ s.pending ∧
      ∀ r ∈ s.reads, s.accepted[r.1]? = some r.2 := by
  have hinv : Inv s := runFrom_invariant_of_meets
    (fun s a t hs hroom hstep => hs.step hroom hstep) init_inv hroom hrun
  refine ⟨?_, hinv.split, hinv.reads⟩
  rw [hinv.split]
  exact List.prefix_append _ _

/-- Two submissions, one of them executed and removed in between. -/
theorem queue_fifo_two_tasks :
    let a : AioTask := ⟨16, 1, 2, 4096, 0, 8⟩
    let b : AioTask := ⟨24, 1, 2, 8192, 8, 8⟩
    let as := appendOnce 3 a ++ [.kthTest, .kthLook] ++ appendOnce 4 b ++
      [.kthDone, .kthAcquire, .kthShift, .kthCount, .kthRelease, .kthTest, .kthLook]
    Meets step AppendRoom init as ∧
      ∃ s, runFrom step init as = some s ∧ s.executed = [a] ∧ s.accepted = [a, b] ∧
        s.executed <+: s.accepted ∧ ∀ r ∈ s.reads, s.accepted[r.1]? = some r.2 := by
  intro a b as
  have hroom : Meets step AppendRoom init as := by decide +kernel
  have hsome : (runFrom step init as).isSome := by decide +kernel
  rcases Option.isSome_iff_exists.mp hsome with ⟨s, hrun⟩
  have hfifo := queue_fifo as s hroom hrun
  have hexecuted : (runFrom step init as).map QueueState.executed = some [a] := by decide +kernel
  have haccepted : (runFrom step init as).map QueueState.accepted = some [a, b] := by decide +kernel
  rw [hrun] at hexecuted haccepted
  exact ⟨hroom, s, hrun, by simpa using hexecuted, by simpa using haccepted, hfifo.1,
    hfifo.2.2⟩

end Xv6.Aio
