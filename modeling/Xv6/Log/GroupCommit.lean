import Xv6.Foundations.Mutex
import Xv6.Foundations.Runs
import Xv6.Params

/-!
# Log - The group-commit protocol

Many file-system operations share one transaction.  `begin_op` admits an
operation or puts its process to sleep, `log_write` records a block in the
in-memory header, `end_op` lets the operation go and starts the commit when it
was the last one.  A state records the program point of every process in these
functions, together with the holders of `log.lock` and `ptable.lock`; each
`acquire`, each `release` and each access to the shared fields in between is a
step of its own, so an interleaving is an arbitrary list of actions.

`log.lh.block[0..n)` is the list {lit}`lh`.  A `log_write` that would store behind
the `LOGSIZE` elements of `lh.block` ends the run: what it overwrites is not part
of the state.  Each `bwrite` of `commit` is a step, recorded in {lit}`writes`.  The
history variables {lit}`logged` (operation and block of every `log_write` since the
previous commit), {lit}`ended` (operations that called `end_op`) and {lit}`writes`
are only written.

Main results:

- Theorem {lit}`GroupInv.step`: every step of every process keeps the invariant.
- Theorem {lit}`commit_leads`: a commit runs through to the end of its writes.
- Theorem {lit}`group_commit`: what holds in every reachable state.
- Theorem {lit}`overfullLog_written`: two racing calls of `log_write` make the
  commit write behind the end of the log.
-/

namespace Xv6.Log

open Foundations

/-! ## Program points and states -/

/-- Program point of a process in `begin_op`, `log_write`, `end_op` and in the
`sleep`, `wakeup` and `commit` they call. -/
inductive Pc
  /-- Not in an operation. -/
  | idle
  /-- `begin_op`: about to acquire `log.lock`. -/
  | beginWant
  /-- `begin_op`: holds `log.lock`, at the tests of the loop. -/
  | beginHeld
  /-- `begin_op`: counted in `outstanding`, about to release `log.lock`. -/
  | beginDone
  /-- `sleep`: holds `log.lock`, about to acquire `ptable.lock`. -/
  | sleepWant
  /-- `sleep`: holds both locks, about to release `log.lock`. -/
  | sleepBoth
  /-- `sleep`: holds `ptable.lock`, about to set `SLEEPING` and switch away. -/
  | sleepMark
  /-- `SLEEPING` on channel `&log`. -/
  | asleep
  /-- `RUNNABLE` again, inside `sleep`. -/
  | woken
  /-- `sleep`: back from `sched` with `ptable.lock` held. -/
  | wokenHeld
  /-- Between `begin_op` and `end_op`, not inside `log_write`. -/
  | inOp
  /-- `log_write`: past the two tests, about to acquire `log.lock`. -/
  | writeWant (b : Nat)
  /-- `log_write`: holds `log.lock`. -/
  | writeHeld (b : Nat)
  /-- `log_write`: the block is recorded, about to release `log.lock`. -/
  | writeDone
  /-- `end_op`: about to acquire `log.lock`. -/
  | endWant
  /-- `end_op`: holds `log.lock`. -/
  | endHeld
  /-- `end_op`: `committing` is set, about to release `log.lock`. -/
  | endCommit
  /-- `commit`: at the test of `lh.n`. -/
  | commitRun
  /-- `write_log`: at the test of the loop. -/
  | writeLog (tail : Nat)
  /-- `commit`: about to run `write_head`. -/
  | writeHead
  /-- `install_trans`: at the test of the loop. -/
  | install (tail : Nat)
  /-- `commit`: the blocks are installed, about to set `lh.n = 0`. -/
  | commitWritten
  /-- `commit`: about to run `write_head` with an empty header. -/
  | eraseHead
  /-- `end_op`: `commit` returned, about to acquire `log.lock`. -/
  | commitWant
  /-- `end_op`: holds `log.lock`, about to reset `committing`. -/
  | commitHeld
  /-- `wakeup(&log)`: holds `log.lock`, about to acquire `ptable.lock`. -/
  | wakeWant
  /-- `wakeup(&log)`: holds both locks. -/
  | wakeBoth
  /-- `end_op`: back from `wakeup`, about to release `log.lock`. -/
  | wakeDone
deriving DecidableEq

/-- What `wakeup1(&log)` does to one process. -/
def Pc.wake : Pc → Pc
  | .asleep => .woken
  | k => k

/-- Where the run of the model ends: the three panics of the protocol, and the store of
`log_write` behind the last element of `lh.block`. -/
inductive LogPanic
  | tooBigATransaction
  | logWriteOutsideOfTrans
  | logCommitting
  | blockOverrun
deriving DecidableEq

/-- A `bwrite` of `commit`: of the log block behind the header at distance `tail + 1`, of the
header, or of a block at its home location. -/
inductive DiskWrite
  | slot (tail : Nat)
  | head
  | home (b : Nat)
deriving DecidableEq

/-- The number of the block that is written, with `log.start = start`. -/
def DiskWrite.block (start : Nat) : DiskWrite → Nat
  | .slot tail => start + tail + 1
  | .head => start
  | .home b => b

/-- Protocol state.  `op p` is the number of the operation that `p` began last, `writes` are the
writes to the disk of the last commit. -/
structure GroupState where
  logLock : Option Nat
  ptableLock : Option Nat
  outstanding : Int
  committing : Bool
  lh : List Nat
  pc : Nat → Pc
  panic : Option LogPanic
  op : Nat → Nat
  nextOp : Nat
  logged : List (Nat × Nat)
  ended : List Nat
  writes : List DiskWrite

/-- One action: a process enters one of the three functions, takes the next step
inside one, or is killed while it sleeps. -/
inductive GroupAction
  | beginOp (p : Nat)
  | logWrite (p b : Nat)
  | endOp (p : Nat)
  | advance (p : Nat)
  | kill (p : Nat)
deriving DecidableEq

/-- Initial state, after `initlog`. -/
def groupInit : GroupState where
  logLock := none
  ptableLock := none
  outstanding := 0
  committing := false
  lh := []
  pc _ := .idle
  panic := none
  op _ := 0
  nextOp := 0
  logged := []
  ended := []
  writes := []

/-! ## Steps -/

namespace GroupState

/-- Move `p` to the point `k`, with the given holders of the two locks. -/
def move (s : GroupState) (p : Nat) (k : Pc) (log ptable : Option Nat) : GroupState :=
  { s with pc := Function.update s.pc p k, logLock := log, ptableLock := ptable }

/-- `acquire(&log.lock)`. -/
def acquireLog (s : GroupState) (p : Nat) (k : Pc) : Option GroupState :=
  if s.logLock = none then some (s.move p k (some p) s.ptableLock) else none

/-- `release(&log.lock)`. -/
def releaseLog (s : GroupState) (p : Nat) (k : Pc) : GroupState :=
  s.move p k none s.ptableLock

/-- `acquire(&ptable.lock)`. -/
def acquirePtable (s : GroupState) (p : Nat) (k : Pc) : Option GroupState :=
  if s.ptableLock = none then some (s.move p k s.logLock (some p)) else none

/-- `release(&ptable.lock)`. -/
def releasePtable (s : GroupState) (p : Nat) (k : Pc) : GroupState :=
  s.move p k s.logLock none

/-- A step without effect on the locks. -/
def goto (s : GroupState) (p : Nat) (k : Pc) : GroupState :=
  s.move p k s.logLock s.ptableLock

/-- The system stops with a message. -/
def halt (s : GroupState) (m : LogPanic) : GroupState :=
  { s with panic := some m }

/-- The admission test of `begin_op`. -/
def Admits (s : GroupState) : Prop :=
  s.committing = false ∧ s.lh.length + (s.outstanding + 1) * maxopblocks ≤ logsize

instance (s : GroupState) : Decidable s.Admits :=
  inferInstanceAs (Decidable (_ ∧ _))

/-- `log.outstanding += 1` for a new operation of `p`. -/
def enroll (s : GroupState) (p : Nat) : GroupState :=
  { s with outstanding := s.outstanding + 1, op := Function.update s.op p s.nextOp,
           nextOp := s.nextOp + 1 }

/-- The scan of `log_write`: an absorbed block keeps its place, another one is
appended. -/
def record (s : GroupState) (p b : Nat) : GroupState :=
  { s with lh := if b ∈ s.lh then s.lh else s.lh ++ [b],
           logged := (s.op p, b) :: s.logged }

/-- The operation of `p` calls `end_op`. -/
def call (s : GroupState) (p : Nat) : GroupState :=
  { s with ended := s.op p :: s.ended }

/-- `log.outstanding -= 1`. -/
def discount (s : GroupState) : GroupState :=
  { s with outstanding := s.outstanding - 1 }

/-- `log.committing = c`. -/
def setCommitting (s : GroupState) (c : Bool) : GroupState :=
  { s with committing := c }

/-- `log.lh.n = 0`; the next transaction starts. -/
def clear (s : GroupState) : GroupState :=
  { s with lh := [], logged := [] }

/-- The commit has made the writes `ws`. -/
def setWrites (s : GroupState) (ws : List DiskWrite) : GroupState :=
  { s with writes := ws }

/-- `bwrite`. -/
def bwrite (s : GroupState) (w : DiskWrite) : GroupState :=
  s.setWrites (s.writes ++ [w])

/-- `wakeup1(&log)`: every process sleeping on `&log` becomes `RUNNABLE`. -/
def wakeup1 (s : GroupState) : GroupState :=
  { s with pc := fun q => (s.pc q).wake }

/-- The part of `end_op` under the lock. -/
def leave (s : GroupState) (p : Nat) : GroupState :=
  if s.committing then s.discount.halt .logCommitting
  else if s.outstanding - 1 = 0 then (s.discount.setCommitting true).goto p .endCommit
  else s.discount.goto p .wakeWant

/-- The tests at the start of `log_write`, made without the lock. -/
def logWriteTests (s : GroupState) (size : Int) (p b : Nat) : GroupState :=
  if (s.lh.length : Int) ≥ logsize ∨ (s.lh.length : Int) ≥ size - 1 then
    s.halt .tooBigATransaction
  else if s.outstanding < 1 then s.halt .logWriteOutsideOfTrans
  else s.goto p (.writeWant b)

/-- The next step of `p` inside a function. -/
def advance (s : GroupState) (p : Nat) : Pc → Option GroupState
  | .idle | .inOp | .asleep => none
  | .beginWant => s.acquireLog p .beginHeld
  | .beginHeld =>
    if s.Admits then some ((s.enroll p).goto p .beginDone)
    else some (s.goto p .sleepWant)
  | .beginDone => some (s.releaseLog p .inOp)
  | .sleepWant => s.acquirePtable p .sleepBoth
  | .sleepBoth => some (s.releaseLog p .sleepMark)
  | .sleepMark => some (s.releasePtable p .asleep)
  | .woken => s.acquirePtable p .wokenHeld
  | .wokenHeld => some (s.releasePtable p .beginWant)
  | .writeWant b => s.acquireLog p (.writeHeld b)
  | .writeHeld b =>
    if b ∈ s.lh ∨ s.lh.length < logsize then some ((s.record p b).goto p .writeDone)
    else some (s.halt .blockOverrun)
  | .writeDone => some (s.releaseLog p .inOp)
  | .endWant => s.acquireLog p .endHeld
  | .endHeld => some (s.leave p)
  | .endCommit => some (s.releaseLog p .commitRun)
  | .commitRun =>
    if s.lh.length > 0 then some ((s.setWrites []).goto p (.writeLog 0))
    else some (s.goto p .commitWant)
  | .writeLog tail =>
    if tail < s.lh.length then some ((s.bwrite (.slot tail)).goto p (.writeLog (tail + 1)))
    else some (s.goto p .writeHead)
  | .writeHead => some ((s.bwrite .head).goto p (.install 0))
  | .install tail =>
    match s.lh[tail]? with
    | some b => some ((s.bwrite (.home b)).goto p (.install (tail + 1)))
    | none => some (s.goto p .commitWritten)
  | .commitWritten => some (s.clear.goto p .eraseHead)
  | .eraseHead => some ((s.bwrite .head).goto p .commitWant)
  | .commitWant => s.acquireLog p .commitHeld
  | .commitHeld => some ((s.setCommitting false).goto p .wakeWant)
  | .wakeWant => s.acquirePtable p .wakeBoth
  | .wakeBoth => some (s.wakeup1.releasePtable p .wakeDone)
  | .wakeDone => some (s.releaseLog p .idle)

end GroupState

/-- One step of the system with `log.size = size`; nothing happens after a
panic. -/
def groupStep (size : Int) (s : GroupState) (a : GroupAction) : Option GroupState :=
  if s.panic ≠ none then none
  else
    match a with
    | .beginOp p => if s.pc p = .idle then some (s.goto p .beginWant) else none
    | .logWrite p b => if s.pc p = .inOp then some (s.logWriteTests size p b) else none
    | .endOp p => if s.pc p = .inOp then some ((s.call p).goto p .endWant) else none
    | .advance p => s.advance p (s.pc p)
    | .kill p =>
      if s.pc p = .asleep ∧ s.ptableLock = none then some (s.goto p .woken) else none

/-! ## The invariant -/

namespace Pc

/-- Points between `acquire(&log.lock)` and its release. -/
def holdsLog : Pc → Bool
  | .beginHeld | .beginDone | .sleepWant | .sleepBoth | .writeHeld _ | .writeDone
  | .endHeld | .endCommit | .commitHeld | .wakeWant | .wakeBoth | .wakeDone => true
  | _ => false

/-- Points between `acquire(&ptable.lock)` and its release. -/
def holdsPtable : Pc → Bool
  | .sleepBoth | .sleepMark | .wokenHeld | .wakeBoth => true
  | _ => false

/-- Points at which the operation is counted in `outstanding`. -/
def active : Pc → Bool
  | .beginDone | .inOp | .writeWant _ | .writeHeld _ | .writeDone | .endWant
  | .endHeld => true
  | _ => false

/-- Points inside `log_write`. -/
def inLogWrite : Pc → Bool
  | .writeWant _ | .writeHeld _ | .writeDone => true
  | _ => false

/-- Points of `end_op` before the operation is discounted. -/
def ending : Pc → Bool
  | .endWant | .endHeld => true
  | _ => false

/-- Points of the process that carries out the commit. -/
def commits : Pc → Bool
  | .endCommit | .commitRun | .writeLog _ | .writeHead | .install _ | .commitWritten | .eraseHead
  | .commitWant | .commitHeld => true
  | _ => false

/-- Points of the committer after `lh.n = 0`. -/
def cleared : Pc → Bool
  | .eraseHead | .commitWant | .commitHeld => true
  | _ => false

/-- Points of a process that decided to sleep and has not been woken. -/
def sleeps : Pc → Bool
  | .sleepWant | .sleepBoth | .sleepMark | .asleep => true
  | _ => false

/-- Points before the pass of `wakeup1` over the process table. -/
def wakes : Pc → Bool
  | .wakeWant | .wakeBoth => true
  | _ => false

theorem commits_of_cleared {k : Pc} (h : k.cleared = true) : k.commits = true := by
  cases k <;> first | rfl | cases h

theorem inLogWrite_of_active {k : Pc} (h : k.active = false) : k.inLogWrite = false := by
  cases k <;> first | rfl | cases h

theorem holdsLog_of_wakes {k : Pc} (h : k.wakes = true) : k.holdsLog = true := by
  cases k <;> first | rfl | cases h

theorem wake_holdsLog (k : Pc) : k.wake.holdsLog = k.holdsLog := by
  cases k <;> rfl

theorem wake_holdsPtable (k : Pc) : k.wake.holdsPtable = k.holdsPtable := by
  cases k <;> rfl

theorem wake_active (k : Pc) : k.wake.active = k.active := by
  cases k <;> rfl

theorem wake_ending (k : Pc) : k.wake.ending = k.ending := by
  cases k <;> rfl

theorem wake_commits (k : Pc) : k.wake.commits = k.commits := by
  cases k <;> rfl

theorem wake_cleared (k : Pc) : k.wake.cleared = k.cleared := by
  cases k <;> rfl

/-- Who still sleeps after the pass holds a lock. -/
theorem holds_of_wake_sleeps {k : Pc} (h : k.wake.sleeps = true) :
    k.holdsLog = true ∨ k.holdsPtable = true := by
  cases k <;> first | decide | cases h

end Pc

/-- The writes of a commit with the header `lh`: `write_log`, `write_head`, `install_trans`. -/
def commitWrites (lh : List Nat) : List DiskWrite :=
  (List.range lh.length).map .slot ++ .head :: lh.map .home

/-- A commit at the point `k` has blocks to write, and its writes so far are `ws`. -/
def Written (k : Pc) (lh : List Nat) (ws : List DiskWrite) : Prop :=
  match k with
  | .writeLog tail => lh ≠ [] ∧ tail ≤ lh.length ∧ ws = (List.range tail).map .slot
  | .writeHead => lh ≠ [] ∧ ws = (List.range lh.length).map .slot
  | .install tail =>
    lh ≠ [] ∧ ws = (List.range lh.length).map .slot ++ .head :: (lh.take tail).map .home
  | .commitWritten => lh ≠ [] ∧ ws = commitWrites lh
  | _ => True

theorem Written.of_not_commits {k : Pc} (h : k.commits = false) (lh : List Nat)
    (ws : List DiskWrite) : Written k lh ws := by
  cases k <;> trivial

/-- Invariant of the protocol. -/
structure GroupInv (s : GroupState) : Prop where
  logOwner : Owns Pc.holdsLog s.pc s.logLock
  ptableOwner : Owns Pc.holdsPtable s.pc s.ptableLock
  count : Counts Pc.active s.pc s.outstanding
  committer : ∀ p, (s.pc p).commits = true → s.committing = true
  single : ∀ p q, (s.pc p).commits = true → (s.pc q).commits = true → p = q
  quiet : s.committing = true → s.outstanding = 0
  cleared : ∀ p, (s.pc p).cleared = true → s.lh = []
  fresh : s.outstanding = 0 → s.committing = false → s.lh = []
  nodup : s.lh.Nodup
  blocks : ∀ b, b ∈ s.lh ↔ ∃ o, (o, b) ∈ s.logged
  owners : ∀ w ∈ s.logged, w.1 ∈ s.ended ∨ ∃ p, (s.pc p).active = true ∧ s.op p = w.1
  called : ∀ p, (s.pc p).ending = true → s.op p ∈ s.ended
  -- a sleeper that could be admitted is about to be woken
  sleepers : ∀ p, (s.pc p).sleeps = true → ¬ s.Admits ∨ ∃ q, (s.pc q).wakes = true
  written : ∀ p, Written (s.pc p) s.lh s.writes

theorem groupInit_inv : GroupInv groupInit := by
  constructor <;> simp [groupInit, Owns, Counts, Pc.holdsLog, Pc.holdsPtable, Pc.active,
    Pc.commits, Pc.cleared, Pc.ending, Pc.sleeps, Written]
  exact ⟨∅, by simp⟩

namespace GroupInv

variable {s t : GroupState} {p : Nat} {k : Pc}

/-- While an operation is active nothing is being committed. -/
theorem not_committing (h : GroupInv s) (hp : (s.pc p).active = true) :
    s.committing = false := by
  cases hc : s.committing with
  | false => rfl
  | true =>
    have hpos := h.count.pos hp
    rw [h.quiet hc] at hpos
    omega

/-- While a commit runs no operation is active. -/
theorem none_active (h : GroupInv s) (hc : s.committing = true) (p : Nat) :
    (s.pc p).active = false := by
  have hcount := h.count
  rw [h.quiet hc] at hcount
  exact hcount.empty p

end GroupInv

/-- What a step may do that moves `p` to the point `k` and records no block: it
may change the counters and the locks, start an operation of `p`, and enter or
leave the regions under the stated conditions. -/
structure Moves (s t : GroupState) (p : Nat) (k : Pc) : Prop where
  pc : t.pc = Function.update s.pc p k
  lh : t.lh = s.lh
  logged : t.logged = s.logged
  ended : t.ended = s.ended
  op : ∀ q, q ≠ p → t.op q = s.op q
  logOwner : Owns Pc.holdsLog t.pc t.logLock
  ptableOwner : Owns Pc.holdsPtable t.pc t.ptableLock
  count : Counts Pc.active t.pc t.outstanding
  others : ∀ q, q ≠ p → (s.pc q).commits = true → t.committing = true ∧ k.commits = false
  commits : k.commits = true → t.committing = true
  quiet : t.committing = true → t.outstanding = 0
  cleared : k.cleared = true → s.lh = []
  fresh : t.outstanding = 0 → t.committing = false → s.lh = []
  active : (s.pc p).active = true → s.op p ∈ s.ended ∨ k.active = true ∧ t.op p = s.op p
  ending : k.ending = true → t.op p ∈ s.ended
  sleeps : k.sleeps = true → (s.pc p).sleeps = true ∨ ¬ t.Admits
  admits : t.Admits → s.Admits ∨ k.wakes = true
  wakes : (s.pc p).wakes = true → k.wakes = true ∨ ∀ q, (s.pc q).sleeps = false
  writes : t.writes = s.writes ∨ (s.pc p).commits = true
  written : Written k s.lh t.writes

/-- When `p` may go from `j` to `k` in a step that changes nothing but its point
and the locks. -/
structure Enters (s : GroupState) (p : Nat) (j k : Pc) : Prop where
  active : k.active = j.active
  commits : k.commits = j.commits
  cleared : k.cleared = true → s.lh = []
  ending : k.ending = true → s.op p ∈ s.ended
  sleeps : k.sleeps = true → j.sleeps = true ∨ ¬ s.Admits
  wakes : j.wakes = true → k.wakes = true ∨ ∀ q, (s.pc q).sleeps = false
  written : Written k s.lh s.writes

/-- What holds at the new point of `p` and at the points of the others holds at every point. -/
theorem Moves.forall_pc {s t : GroupState} {p : Nat} {k : Pc} (hm : Moves s t p k)
    (P : Nat → Pc → Prop) (hp : P p k) (hs : ∀ q, q ≠ p → P q (s.pc q)) (q : Nat) :
    P q (t.pc q) := by
  rw [hm.pc]
  exact (Function.forall_update_iff s.pc P).mpr ⟨hp, hs⟩ q

namespace GroupInv

variable {s t : GroupState} {p : Nat} {j k : Pc}

/-- The invariant is kept by every step of this kind. -/
theorem moves (h : GroupInv s) (hm : Moves s t p k) : GroupInv t := by
  have hself : t.pc p = k := by rw [hm.pc, Function.update_self]
  have hother : ∀ q, q ≠ p → t.pc q = s.pc q := by
    intro q hq
    rw [hm.pc, Function.update_of_ne hq]
  refine ⟨hm.logOwner, hm.ptableOwner, hm.count, ?_, ?_, hm.quiet, ?_, ?_, ?_, ?_, ?_, ?_, ?_, ?_⟩
  · exact hm.forall_pc (fun _ j => j.commits = true → t.committing = true) hm.commits
      fun q hqp hq => (hm.others q hqp hq).1
  · intro q r hq hr
    by_cases hqp : q = p
    · by_cases hrp : r = p
      · rw [hqp, hrp]
      · rw [hqp, hself] at hq
        rw [hother r hrp] at hr
        simp [(hm.others r hrp hr).2] at hq
    · rw [hother q hqp] at hq
      by_cases hrp : r = p
      · rw [hrp, hself] at hr
        simp [(hm.others q hqp hq).2] at hr
      · rw [hother r hrp] at hr
        exact h.single q r hq hr
  · rw [hm.lh]
    exact hm.forall_pc (fun _ j => j.cleared = true → s.lh = []) hm.cleared
      fun q _ => h.cleared q
  · rw [hm.lh]
    exact hm.fresh
  · rw [hm.lh]
    exact h.nodup
  · rw [hm.lh, hm.logged]
    exact h.blocks
  · intro w hw
    rw [hm.logged] at hw
    rw [hm.ended]
    rcases h.owners w hw with hend | ⟨q, hq, hop⟩
    · exact Or.inl hend
    · by_cases hqp : q = p
      · subst hqp
        rcases hm.active hq with hend | ⟨hk, hsame⟩
        · exact Or.inl (hop ▸ hend)
        · exact Or.inr ⟨q, by rw [hself, hk], by rw [hsame, hop]⟩
      · exact Or.inr ⟨q, by rw [hother q hqp, hq], by rw [hm.op q hqp, hop]⟩
  · rw [hm.ended]
    refine hm.forall_pc (fun q j => j.ending = true → t.op q ∈ s.ended) hm.ending ?_
    intro q hqp
    rw [hm.op q hqp]
    exact h.called q
  · intro q hq
    -- the sleeper was refused before, or is refused now
    have hold : (s.pc q).sleeps = true ∨ ¬ t.Admits :=
      hm.forall_pc (fun q j => j.sleeps = true → (s.pc q).sleeps = true ∨ ¬ t.Admits) hm.sleeps
        (fun _ _ => Or.inl) q hq
    by_cases hadmits : t.Admits
    · right
      rcases hm.admits hadmits with hbefore | hk
      · have hslept := hold.resolve_right (fun hno => hno hadmits)
        rcases h.sleepers q hslept with hno | ⟨r, hr⟩
        · exact absurd hbefore hno
        · by_cases hrp : r = p
          · subst hrp
            rcases hm.wakes hr with hk | hnone
            · exact ⟨r, by rw [hself, hk]⟩
            · simp [hnone q] at hslept
          · exact ⟨r, by rw [hother r hrp, hr]⟩
      · exact ⟨p, by rw [hself, hk]⟩
    · exact Or.inl hadmits
  · rw [hm.lh]
    refine hm.forall_pc (fun _ j => Written j s.lh t.writes) hm.written ?_
    intro q hqp
    rcases hm.writes with hsame | hp
    · rw [hsame]
      exact h.written q
    · -- the process that writes is the only one that commits
      refine Written.of_not_commits ?_ _ _
      cases hq : (s.pc q).commits with
      | false => rfl
      | true => exact absurd (h.single q p hq hp) hqp

/-- A step that changes only the locks and the point of `p`. -/
theorem move (h : GroupInv s) {log ptable : Option Nat} (hpc : s.pc p = j)
    (hlog : Owns Pc.holdsLog (Function.update s.pc p k) log)
    (hptable : Owns Pc.holdsPtable (Function.update s.pc p k) ptable)
    (he : Enters s p j k) : GroupInv (s.move p k log ptable) := by
  subst hpc
  refine h.moves (p := p) (k := k) ⟨rfl, rfl, rfl, rfl, fun _ _ => rfl, hlog, hptable,
    h.count.keep he.active, ?_, ?_, h.quiet, he.cleared, h.fresh, ?_, he.ending, he.sleeps,
    Or.inl, he.wakes, Or.inl rfl, he.written⟩
  · intro q hqp hq
    refine ⟨h.committer q hq, ?_⟩
    cases hk : k.commits with
    | false => rfl
    | true => exact absurd (h.single q p hq (by rw [← he.commits, hk])) hqp
  · intro hk
    exact h.committer p (by rw [← he.commits, hk])
  · intro hp
    exact Or.inr ⟨by rw [he.active, hp], rfl⟩

theorem acquireLog (h : GroupInv s) (hpc : s.pc p = j) (hst : s.acquireLog p k = some t)
    (hlog : k.holdsLog = true) (hptable : k.holdsPtable = j.holdsPtable)
    (he : Enters s p j k) : GroupInv t := by
  unfold GroupState.acquireLog at hst
  split at hst
  · rename_i hfree
    cases hst
    have howner := h.logOwner
    rw [hfree] at howner
    exact h.move hpc (howner.acquire hlog) (h.ptableOwner.keep (hpc ▸ hptable)) he
  · cases hst

theorem releaseLog (h : GroupInv s) (hpc : s.pc p = j) (hp : j.holdsLog = true)
    (hlog : k.holdsLog = false) (hptable : k.holdsPtable = j.holdsPtable)
    (he : Enters s p j k) : GroupInv (s.releaseLog p k) :=
  h.move hpc (h.logOwner.release (hpc ▸ hp) hlog) (h.ptableOwner.keep (hpc ▸ hptable)) he

theorem acquirePtable (h : GroupInv s) (hpc : s.pc p = j)
    (hst : s.acquirePtable p k = some t) (hlog : k.holdsLog = j.holdsLog)
    (hptable : k.holdsPtable = true) (he : Enters s p j k) : GroupInv t := by
  unfold GroupState.acquirePtable at hst
  split at hst
  · rename_i hfree
    cases hst
    have howner := h.ptableOwner
    rw [hfree] at howner
    exact h.move hpc (h.logOwner.keep (hpc ▸ hlog)) (howner.acquire hptable) he
  · cases hst

theorem releasePtable (h : GroupInv s) (hpc : s.pc p = j) (hp : j.holdsPtable = true)
    (hlog : k.holdsLog = j.holdsLog) (hptable : k.holdsPtable = false)
    (he : Enters s p j k) : GroupInv (s.releasePtable p k) :=
  h.move hpc (h.logOwner.keep (hpc ▸ hlog)) (h.ptableOwner.release (hpc ▸ hp) hptable) he

theorem goto (h : GroupInv s) (hpc : s.pc p = j) (hlog : k.holdsLog = j.holdsLog)
    (hptable : k.holdsPtable = j.holdsPtable) (he : Enters s p j k) : GroupInv (s.goto p k) :=
  h.move hpc (h.logOwner.keep (hpc ▸ hlog)) (h.ptableOwner.keep (hpc ▸ hptable)) he

theorem halt (h : GroupInv s) (m : LogPanic) : GroupInv (s.halt m) :=
  ⟨h.logOwner, h.ptableOwner, h.count, h.committer, h.single, h.quiet, h.cleared, h.fresh,
    h.nodup, h.blocks, h.owners, h.called, h.sleepers, h.written⟩

/-- A write of the committer, or the start of its writes. -/
theorem setWrites (h : GroupInv s) (hpc : s.pc p = j) (hj : j.commits = true)
    (hk : k.commits = true) (hlog : k.holdsLog = j.holdsLog)
    (hptable : k.holdsPtable = j.holdsPtable) (hactive : k.active = j.active)
    (hcleared : k.cleared = true → s.lh = []) {ws : List DiskWrite} (hw : Written k s.lh ws) :
    GroupInv ((s.setWrites ws).goto p k) := by
  subst hpc
  have hnone : ∀ {l : Pc}, l.commits = true →
      l.active = false ∧ l.ending = false ∧ l.sleeps = false ∧ l.wakes = false := by
    intro l hl
    cases l <;> first | exact ⟨rfl, rfl, rfl, rfl⟩ | cases hl
  obtain ⟨hpa, -, -, hpw⟩ := hnone hj
  obtain ⟨hka, hke, hks, -⟩ := hnone hk
  refine h.moves (p := p) (k := k) ⟨rfl, rfl, rfl, rfl, fun _ _ => rfl, h.logOwner.keep hlog,
    h.ptableOwner.keep hptable, h.count.keep hactive, ?_, fun _ => h.committer p hj, h.quiet,
    hcleared, h.fresh, ?_, ?_, ?_, Or.inl, ?_, Or.inr hj, hw⟩
  · intro q hqp hq
    exact absurd (h.single q p hq hj) hqp
  · intro hbad
    exact absurd (hpa.symm.trans hbad) Bool.false_ne_true
  · intro hbad
    exact absurd (hke.symm.trans hbad) Bool.false_ne_true
  · intro hbad
    exact absurd (hks.symm.trans hbad) Bool.false_ne_true
  · intro hbad
    exact absurd (hpw.symm.trans hbad) Bool.false_ne_true

/-! ### Steps on the shared fields -/

theorem enroll (h : GroupInv s) (hpc : s.pc p = .beginHeld) (hadmits : s.Admits) :
    GroupInv ((s.enroll p).goto p .beginDone) := by
  have hcount := h.count.enter (p := p) (k := .beginDone) (by rw [hpc]; rfl) rfl
  have hpos := hcount.pos (p := p) (by rw [Function.update_self]; rfl)
  refine h.moves (p := p) (k := .beginDone) ⟨rfl, rfl, rfl, rfl, ?_,
    h.logOwner.keep (by rw [hpc]; rfl), h.ptableOwner.keep (by rw [hpc]; rfl), hcount,
    ?_, nofun, ?_, nofun, ?_, ?_, nofun, nofun, fun _ => Or.inl hadmits, ?_, Or.inl rfl, trivial⟩
  · intro q hq
    exact Function.update_of_ne hq _ _
  · intro q _ hq
    exact ⟨h.committer q hq, rfl⟩
  · intro hc
    exact absurd (hadmits.1.symm.trans hc) (by decide)
  · intro hzero
    exact absurd hzero hpos.ne'
  · rw [hpc]
    nofun
  · rw [hpc]
    nofun

/-- `log_write` records a block of an active operation. -/
theorem record (h : GroupInv s) (hp : (s.pc p).active = true) (b : Nat) :
    GroupInv (s.record p b) := by
  have hpos := h.count.pos hp
  have hnot := h.not_committing hp
  have hlh : (s.record p b).lh = if b ∈ s.lh then s.lh else s.lh ++ [b] := rfl
  have hidle : ∀ q, (s.pc q).commits = false := by
    intro q
    cases hq : (s.pc q).commits with
    | false => rfl
    | true => exact absurd (hnot.symm.trans (h.committer q hq)) Bool.false_ne_true
  refine ⟨h.logOwner, h.ptableOwner, h.count, h.committer, h.single, h.quiet, ?_, ?_, ?_, ?_,
    ?_, h.called, ?_, fun q => Written.of_not_commits (hidle q) _ _⟩
  · intro q hq
    exact absurd ((hidle q).symm.trans (Pc.commits_of_cleared hq)) Bool.false_ne_true
  · intro hzero
    exact absurd hzero hpos.ne'
  · rw [hlh]
    split
    · exact h.nodup
    · rename_i hnew
      rw [List.nodup_append]
      refine ⟨h.nodup, List.nodup_singleton b, ?_⟩
      intro c hc d hd hcd
      rw [List.mem_singleton] at hd
      exact hnew (hd ▸ hcd ▸ hc)
  · intro c
    have hmem : c ∈ (s.record p b).lh ↔ c = b ∨ c ∈ s.lh := by
      rw [hlh]
      split
      · rename_i hold
        refine ⟨Or.inr, ?_⟩
        intro hc
        rcases hc with rfl | hc
        · exact hold
        · exact hc
      · simp [or_comm]
    rw [hmem, h.blocks c]
    simp only [GroupState.record, List.mem_cons, Prod.mk.injEq, exists_or]
    simp
  · intro w hw
    rcases List.mem_cons.mp hw with rfl | hold
    · exact Or.inr ⟨p, hp, rfl⟩
    · exact h.owners w hold
  · intro q hq
    have hgrow : s.lh.length ≤ (s.record p b).lh.length := by
      rw [hlh]
      split <;> simp
    have hmono : (s.record p b).Admits → s.Admits := by
      intro ha
      refine ⟨ha.1, le_trans ?_ ha.2⟩
      exact add_le_add_left (by exact_mod_cast hgrow) _
    rcases h.sleepers q hq with hno | hwake
    · exact Or.inl (fun ha => hno (hmono ha))
    · exact Or.inr hwake

/-- An operation calls `end_op`. -/
theorem call (h : GroupInv s) : GroupInv (s.call p) := by
  refine ⟨h.logOwner, h.ptableOwner, h.count, h.committer, h.single, h.quiet, h.cleared,
    h.fresh, h.nodup, h.blocks, ?_, ?_, h.sleepers, h.written⟩
  · intro w hw
    rcases h.owners w hw with hend | hact
    · exact Or.inl (List.mem_cons_of_mem _ hend)
    · exact Or.inr hact
  · intro q hq
    exact List.mem_cons_of_mem _ (h.called q hq)

/-- The last operation leaves and becomes the committer. -/
theorem leave_last (h : GroupInv s) (hpc : s.pc p = .endHeld) (hzero : s.outstanding - 1 = 0) :
    GroupInv ((s.discount.setCommitting true).goto p .endCommit) := by
  have hactive : (s.pc p).active = true := by rw [hpc]; rfl
  have hcount := h.count.leave (k := .endCommit) hactive rfl
  refine h.moves (p := p) (k := .endCommit) ⟨rfl, rfl, rfl, rfl, fun _ _ => rfl,
    h.logOwner.keep (by rw [hpc]; rfl), h.ptableOwner.keep (by rw [hpc]; rfl), hcount,
    ?_, fun _ => rfl, fun _ => hzero, nofun, nofun, ?_, nofun, nofun, nofun, ?_, Or.inl rfl,
    trivial⟩
  · intro q _ hq
    have hc := h.committer q hq
    simp [h.not_committing hactive] at hc
  · intro _
    exact Or.inl (h.called p (by rw [hpc]; rfl))
  · rw [hpc]
    nofun

/-- Another operation leaves: the sleepers may fit now and will be woken. -/
theorem leave_other (h : GroupInv s) (hpc : s.pc p = .endHeld)
    (hzero : s.outstanding - 1 ≠ 0) : GroupInv (s.discount.goto p .wakeWant) := by
  have hactive : (s.pc p).active = true := by rw [hpc]; rfl
  have hnot := h.not_committing hactive
  have hcount := h.count.leave (k := .wakeWant) hactive rfl
  refine h.moves (p := p) (k := .wakeWant) ⟨rfl, rfl, rfl, rfl, fun _ _ => rfl,
    h.logOwner.keep (by rw [hpc]; rfl), h.ptableOwner.keep (by rw [hpc]; rfl), hcount,
    ?_, nofun, ?_, nofun, ?_, ?_, nofun, nofun, fun _ => Or.inr rfl, fun _ => Or.inl rfl,
    Or.inl rfl, trivial⟩
  · intro q _ hq
    exact ⟨h.committer q hq, rfl⟩
  · intro hc
    exact absurd (hnot.symm.trans hc) (by decide)
  · intro hz
    exact absurd hz hzero
  · intro _
    exact Or.inl (h.called p (by rw [hpc]; rfl))

theorem leave (h : GroupInv s) (hpc : s.pc p = .endHeld) : GroupInv (s.leave p) := by
  have hnot := h.not_committing (p := p) (by rw [hpc]; rfl)
  unfold GroupState.leave
  rw [hnot]
  split
  · rename_i hc
    cases hc
  · split
    · rename_i hzero
      exact h.leave_last hpc hzero
    · rename_i hzero
      exact h.leave_other hpc hzero

/-- The committer empties the header. -/
theorem clear (h : GroupInv s) (hpc : s.pc p = .commitWritten) :
    GroupInv (s.clear.goto p .eraseHead) := by
  have hcommits : (s.pc p).commits = true := by rw [hpc]; rfl
  have hc := h.committer p hcommits
  have hself : (s.clear.goto p .eraseHead).pc p = .eraseHead := Function.update_self ..
  have hother : ∀ q, q ≠ p → (s.clear.goto p .eraseHead).pc q = s.pc q := fun q hq =>
    Function.update_of_ne hq ..
  have hcommitter : ∀ q, ((s.clear.goto p .eraseHead).pc q).commits = true → q = p := by
    intro q hq
    by_contra hqp
    rw [hother q hqp] at hq
    exact hqp (h.single q p hq hcommits)
  refine ⟨h.logOwner.keep (by rw [hpc]; rfl), h.ptableOwner.keep (by rw [hpc]; rfl),
    h.count.keep (by rw [hpc]; rfl), fun _ _ => hc, ?_, h.quiet, fun _ _ => rfl, fun _ _ => rfl,
    List.nodup_nil, ?_, nofun, ?_, ?_, ?_⟩
  · intro q r hq hr
    rw [hcommitter q hq, hcommitter r hr]
  · intro b
    simp [GroupState.clear, GroupState.goto, GroupState.move]
  · intro q hq
    by_cases hqp : q = p
    · rw [hqp, hself] at hq
      exact absurd hq Bool.false_ne_true
    · rw [hother q hqp] at hq
      exact h.called q hq
  · intro q _
    refine Or.inl ?_
    intro ha
    exact absurd (ha.1.symm.trans hc) (by decide)
  · intro q
    by_cases hqp : q = p
    · rw [hqp, hself]
      trivial
    · refine Written.of_not_commits ?_ _ _
      cases hq : ((s.clear.goto p .eraseHead).pc q).commits with
      | false => rfl
      | true => exact absurd (hcommitter q hq) hqp

/-- The commit is over: the sleepers will be woken. -/
theorem finish (h : GroupInv s) (hpc : s.pc p = .commitHeld) :
    GroupInv ((s.setCommitting false).goto p .wakeWant) := by
  have hcommits : (s.pc p).commits = true := by rw [hpc]; rfl
  have hlh := h.cleared p (by rw [hpc]; rfl)
  refine h.moves (p := p) (k := .wakeWant) ⟨rfl, rfl, rfl, rfl, fun _ _ => rfl,
    h.logOwner.keep (by rw [hpc]; rfl), h.ptableOwner.keep (by rw [hpc]; rfl),
    h.count.keep (by rw [hpc]; rfl), ?_, nofun, nofun, nofun, fun _ _ => hlh, ?_, nofun, nofun,
    fun _ => Or.inr rfl, fun _ => Or.inl rfl, Or.inl rfl, trivial⟩
  · intro q hqp hq
    exact absurd (h.single q p hq hcommits) hqp
  · rw [hpc]
    nofun

/-- After the pass of `wakeup1` nobody sleeps: whoever was about to would hold one
of the two locks that the waker holds. -/
theorem wakeup1_sleeps (h : GroupInv s) (hpc : s.pc p = .wakeBoth) (q : Nat) :
    (s.wakeup1.pc q).sleeps = false := by
  cases hq : (s.wakeup1.pc q).sleeps with
  | false => rfl
  | true =>
    have hsame : q = p := by
      rcases Pc.holds_of_wake_sleeps hq with hlog | hptable
      · exact h.logOwner.unique hlog (by rw [hpc]; rfl)
      · exact h.ptableOwner.unique hptable (by rw [hpc]; rfl)
    have hpoint : s.wakeup1.pc q = .wakeBoth := by
      rw [hsame, GroupState.wakeup1]
      simp [hpc, Pc.wake]
    rw [hpoint] at hq
    cases hq

theorem wakeup1 (h : GroupInv s) (hpc : s.pc p = .wakeBoth) : GroupInv s.wakeup1 := by
  refine ⟨h.logOwner.map Pc.wake_holdsLog, h.ptableOwner.map Pc.wake_holdsPtable,
    h.count.map Pc.wake_active, ?_, ?_, h.quiet, ?_, h.fresh, h.nodup, h.blocks, ?_, ?_, ?_, ?_⟩
  · intro q hq
    exact h.committer q (by rwa [GroupState.wakeup1, Pc.wake_commits] at hq)
  · intro q r hq hr
    rw [GroupState.wakeup1, Pc.wake_commits] at hq hr
    exact h.single q r hq hr
  · intro q hq
    exact h.cleared q (by rwa [GroupState.wakeup1, Pc.wake_cleared] at hq)
  · intro w hw
    rcases h.owners w hw with hend | ⟨q, hq, hop⟩
    · exact Or.inl hend
    · exact Or.inr ⟨q, by rwa [GroupState.wakeup1, Pc.wake_active], hop⟩
  · intro q hq
    exact h.called q (by rwa [GroupState.wakeup1, Pc.wake_ending] at hq)
  · intro q hq
    rw [h.wakeup1_sleeps hpc q] at hq
    cases hq
  · intro q
    have hq := h.written q
    show Written (s.pc q).wake s.lh s.writes
    cases hk : s.pc q <;> rw [hk] at hq <;> exact hq

/-- The tests of `log_write` change at most the point of `p`. -/
theorem logWriteTests (h : GroupInv s) (hpc : s.pc p = .inOp) (size : Int) (b : Nat) :
    GroupInv (s.logWriteTests size p b) := by
  unfold GroupState.logWriteTests
  split
  · exact h.halt _
  · split
    · exact h.halt _
    · exact h.goto hpc rfl rfl ⟨rfl, rfl, nofun, nofun, nofun, nofun, trivial⟩

/-- One step inside a function keeps the invariant. -/
theorem advance (h : GroupInv s) (hpc : s.pc p = j) (hst : s.advance p j = some t) :
    GroupInv t := by
  cases j with
  | idle | inOp | asleep => cases hst
  | beginWant | writeWant _ =>
    exact h.acquireLog hpc hst rfl rfl ⟨rfl, rfl, nofun, nofun, nofun, nofun, trivial⟩
  | beginHeld =>
    simp only [GroupState.advance] at hst
    split at hst
    · rename_i hadmits
      cases hst
      exact h.enroll hpc hadmits
    · rename_i hno
      cases hst
      exact h.goto hpc rfl rfl ⟨rfl, rfl, nofun, nofun, fun _ => Or.inr hno, nofun, trivial⟩
  | beginDone | writeDone | endCommit | wakeDone =>
    cases hst
    exact h.releaseLog hpc rfl rfl rfl ⟨rfl, rfl, nofun, nofun, nofun, nofun, trivial⟩
  | sleepWant =>
    exact h.acquirePtable hpc hst rfl rfl
      ⟨rfl, rfl, nofun, nofun, fun _ => Or.inl rfl, nofun, trivial⟩
  | sleepBoth =>
    cases hst
    exact h.releaseLog hpc rfl rfl rfl ⟨rfl, rfl, nofun, nofun, fun _ => Or.inl rfl, nofun, trivial⟩
  | sleepMark =>
    cases hst
    exact h.releasePtable hpc rfl rfl rfl
      ⟨rfl, rfl, nofun, nofun, fun _ => Or.inl rfl, nofun, trivial⟩
  | woken =>
    exact h.acquirePtable hpc hst rfl rfl ⟨rfl, rfl, nofun, nofun, nofun, nofun, trivial⟩
  | wokenHeld =>
    cases hst
    exact h.releasePtable hpc rfl rfl rfl ⟨rfl, rfl, nofun, nofun, nofun, nofun, trivial⟩
  | writeHeld b =>
    simp only [GroupState.advance] at hst
    split at hst
    · cases hst
      have hrecord := h.record (p := p) (by rw [hpc]; rfl) b
      exact hrecord.goto hpc rfl rfl ⟨rfl, rfl, nofun, nofun, nofun, nofun, trivial⟩
    · cases hst
      exact h.halt _
  | endWant =>
    have hended := h.called p (by rw [hpc]; rfl)
    exact h.acquireLog hpc hst rfl rfl ⟨rfl, rfl, nofun, fun _ => hended, nofun, nofun, trivial⟩
  | endHeld =>
    cases hst
    exact h.leave hpc
  | commitRun =>
    simp only [GroupState.advance] at hst
    split at hst
    · rename_i hpos
      cases hst
      exact h.setWrites (k := .writeLog 0) hpc rfl rfl rfl rfl rfl nofun
        ⟨List.length_pos_iff.mp hpos, Nat.zero_le _, rfl⟩
    · rename_i hnone
      cases hst
      have hlh : s.lh = [] := List.length_eq_zero_iff.mp (by omega)
      exact h.goto hpc rfl rfl ⟨rfl, rfl, fun _ => hlh, nofun, nofun, nofun, trivial⟩
  | writeLog tail =>
    have hw := h.written p
    rw [hpc] at hw
    obtain ⟨hne, hle, hws⟩ := hw
    simp only [GroupState.advance] at hst
    split at hst
    · rename_i hlt
      cases hst
      refine h.setWrites (k := .writeLog (tail + 1)) hpc rfl rfl rfl rfl rfl nofun ⟨hne, hlt, ?_⟩
      rw [hws, List.range_succ, List.map_append]
      rfl
    · rename_i hge
      cases hst
      have hend : tail = s.lh.length := by omega
      subst hend
      exact h.goto hpc rfl rfl ⟨rfl, rfl, nofun, nofun, nofun, nofun, hne, hws⟩
  | writeHead =>
    cases hst
    have hw := h.written p
    rw [hpc] at hw
    refine h.setWrites (k := .install 0) hpc rfl rfl rfl rfl rfl nofun ⟨hw.1, ?_⟩
    rw [hw.2]
    rfl
  | install tail =>
    have hw := h.written p
    rw [hpc] at hw
    simp only [GroupState.advance] at hst
    split at hst
    · rename_i b hb
      cases hst
      refine h.setWrites (k := .install (tail + 1)) hpc rfl rfl rfl rfl rfl nofun ⟨hw.1, ?_⟩
      rw [hw.2, List.take_add_one, hb]
      simp
    · rename_i hnone
      cases hst
      have hend : s.lh.take tail = s.lh :=
        List.take_of_length_le (List.getElem?_eq_none_iff.mp hnone)
      refine h.goto hpc rfl rfl ⟨rfl, rfl, nofun, nofun, nofun, nofun, hw.1, ?_⟩
      rw [hw.2, hend]
      rfl
  | commitWritten =>
    cases hst
    exact h.clear hpc
  | eraseHead =>
    cases hst
    have hlh := h.cleared p (by rw [hpc]; rfl)
    exact h.setWrites (k := .commitWant) hpc rfl rfl rfl rfl rfl (fun _ => hlh) trivial
  | commitWant =>
    have hlh := h.cleared p (by rw [hpc]; rfl)
    exact h.acquireLog hpc hst rfl rfl ⟨rfl, rfl, fun _ => hlh, nofun, nofun, nofun, trivial⟩
  | commitHeld =>
    cases hst
    exact h.finish hpc
  | wakeWant =>
    exact h.acquirePtable hpc hst rfl rfl
      ⟨rfl, rfl, nofun, nofun, nofun, fun _ => Or.inl rfl, trivial⟩
  | wakeBoth =>
    cases hst
    have hpoint : s.wakeup1.pc p = .wakeBoth := by
      simp [GroupState.wakeup1, hpc, Pc.wake]
    exact (h.wakeup1 hpc).releasePtable hpoint rfl rfl rfl
      ⟨rfl, rfl, nofun, nofun, nofun, fun _ => Or.inr (h.wakeup1_sleeps hpc), trivial⟩

/-- Every step of every process keeps the invariant. -/
theorem step (size : Int) (a : GroupAction) (h : GroupInv s)
    (hst : groupStep size s a = some t) : GroupInv t := by
  unfold groupStep at hst
  split at hst
  · cases hst
  · cases a with
    | beginOp p =>
      dsimp only at hst
      split at hst
      · rename_i hpc
        cases hst
        exact h.goto hpc rfl rfl ⟨rfl, rfl, nofun, nofun, nofun, nofun, trivial⟩
      · cases hst
    | logWrite p b =>
      dsimp only at hst
      split at hst
      · rename_i hpc
        cases hst
        exact h.logWriteTests hpc size b
      · cases hst
    | endOp p =>
      dsimp only at hst
      split at hst
      · rename_i hpc
        cases hst
        exact h.call.goto hpc rfl rfl
          ⟨rfl, rfl, nofun, fun _ => List.mem_cons_self, nofun, nofun, trivial⟩
      · cases hst
    | advance p => exact h.advance rfl hst
    | kill p =>
      dsimp only at hst
      split at hst
      · rename_i hpc
        cases hst
        exact h.goto hpc.1 rfl rfl ⟨rfl, rfl, nofun, nofun, nofun, nofun, trivial⟩
      · cases hst

end GroupInv

/-- During a commit all operations of the transaction have called `end_op`. -/
theorem GroupInv.ended {s : GroupState} (h : GroupInv s) (hc : s.committing = true) :
    ∀ w ∈ s.logged, w.1 ∈ s.ended := by
  intro w hw
  rcases h.owners w hw with hend | ⟨q, hq, _⟩
  · exact hend
  · rw [h.none_active hc q] at hq
    cases hq

/-! ## The writes of a commit -/

section Commit

variable {size : Int} {s t : GroupState} {p n : Nat} {k : Pc}

/-- `n` steps of `p` lead to the point `k`, with the same transaction. -/
def Leads (size : Int) (p n : Nat) (s : GroupState) (k : Pc) : Prop :=
  ∃ t, runFrom (groupStep size) s (List.replicate n (.advance p)) = some t ∧ t.panic = none ∧
    t.pc p = k ∧ t.lh = s.lh ∧ t.logged = s.logged

theorem Leads.step (hpanic : s.panic = none) (hst : s.advance p (s.pc p) = some t)
    (hlh : t.lh = s.lh) (hlogged : t.logged = s.logged) (h : Leads size p n t k) :
    Leads size p (n + 1) s k := by
  obtain ⟨u, hrun, hu, hpc, hlhu, hloggedu⟩ := h
  have hstep : groupStep size s (.advance p) = some t := by
    simp [groupStep, hpanic, hst]
  exact ⟨u, runFrom_cons.mpr ⟨t, hstep, hrun⟩, hu, hpc, hlhu.trans hlh, hloggedu.trans hlogged⟩

/-- `install_trans`, from any pass of its loop on. -/
theorem install_leads {tail : Nat} (hpanic : s.panic = none) (hpc : s.pc p = .install tail)
    (hn : s.lh.length = tail + n) : Leads size p (n + 1) s .commitWritten := by
  induction n generalizing s tail with
  | zero =>
    have hst : s.advance p (s.pc p) = some (s.goto p .commitWritten) := by
      rw [hpc, GroupState.advance, List.getElem?_eq_none (by omega)]
    exact .step hpanic hst rfl rfl ⟨_, rfl, hpanic, Function.update_self .., rfl, rfl⟩
  | succ n ih =>
    obtain ⟨b, hb⟩ : ∃ b, s.lh[tail]? = some b := ⟨_, List.getElem?_eq_getElem (by omega)⟩
    have hst : s.advance p (s.pc p) =
        some ((s.bwrite (.home b)).goto p (.install (tail + 1))) := by
      rw [hpc, GroupState.advance, hb]
    refine .step hpanic hst rfl rfl (ih hpanic (Function.update_self ..) ?_)
    exact hn.trans (by omega)

/-- `write_log`, from any pass of its loop on, `write_head` and `install_trans`. -/
theorem writeLog_leads {tail : Nat} (hpanic : s.panic = none) (hpc : s.pc p = .writeLog tail)
    (hn : s.lh.length = tail + n) : Leads size p (n + s.lh.length + 3) s .commitWritten := by
  induction n generalizing s tail with
  | zero =>
    have hst : s.advance p (s.pc p) = some (s.goto p .writeHead) := by
      rw [hpc, GroupState.advance, if_neg (by omega)]
    have hhead : (s.goto p .writeHead).advance p ((s.goto p .writeHead).pc p) =
        some (((s.goto p .writeHead).bwrite .head).goto p (.install 0)) := by
      rw [show (s.goto p .writeHead).pc p = .writeHead from Function.update_self ..]
      rfl
    have hinstall : Leads size p (s.lh.length + 1)
        (((s.goto p .writeHead).bwrite .head).goto p (.install 0)) .commitWritten :=
      install_leads hpanic (Function.update_self ..) (Nat.zero_add _).symm
    rw [Nat.zero_add]
    exact .step hpanic hst rfl rfl (.step hpanic hhead rfl rfl hinstall)
  | succ n ih =>
    have hst : s.advance p (s.pc p) =
        some ((s.bwrite (.slot tail)).goto p (.writeLog (tail + 1))) := by
      rw [hpc, GroupState.advance, if_pos (by omega)]
    have hrest : Leads size p (n + s.lh.length + 3)
        ((s.bwrite (.slot tail)).goto p (.writeLog (tail + 1))) .commitWritten :=
      ih hpanic (Function.update_self ..) (hn.trans (by omega))
    rw [show n + 1 + s.lh.length + 3 = n + s.lh.length + 3 + 1 by omega]
    exact .step hpanic hst rfl rfl hrest

/-- A commit of a transaction that logged a block runs through its writes. -/
theorem commit_leads (hpanic : s.panic = none) (hpc : s.pc p = .commitRun) (hlh : s.lh ≠ []) :
    Leads size p (2 * s.lh.length + 4) s .commitWritten := by
  have hst : s.advance p (s.pc p) = some ((s.setWrites []).goto p (.writeLog 0)) := by
    rw [hpc, GroupState.advance, if_pos (List.length_pos_iff.mpr hlh)]
  have hrest : Leads size p (s.lh.length + s.lh.length + 3)
      ((s.setWrites []).goto p (.writeLog 0)) .commitWritten :=
    writeLog_leads hpanic (Function.update_self ..) (Nat.zero_add _).symm
  rw [show 2 * s.lh.length + 4 = s.lh.length + s.lh.length + 3 + 1 by omega]
  exact .step hpanic hst rfl rfl hrest

end Commit

/-- The block `b` is outside the `size` blocks of the log that starts at block `start`. -/
def OutsideLog (start : Nat) (size : Int) (b : Nat) : Prop :=
  b < start ∨ start + size ≤ b

/-- The blocks that a commit with header `lh` writes outside the log are those of the header,
unless `write_log` runs over the end of the log. -/
theorem written_outside_iff {start : Nat} {size : Int} (hsize : 0 < size) (lh : List Nat) :
    (∀ b, OutsideLog start size b →
        (b ∈ (commitWrites lh).map (DiskWrite.block start) ↔ b ∈ lh)) ↔
      ∀ tail < lh.length, size ≤ tail + 1 → start + tail + 1 ∈ lh := by
  have hmem : ∀ b, b ∈ (commitWrites lh).map (DiskWrite.block start) ↔
      (∃ tail < lh.length, start + tail + 1 = b) ∨ start = b ∨ b ∈ lh := by
    intro b
    simp [commitWrites, DiskWrite.block, eq_comm]
  simp only [hmem]
  constructor
  · intro h tail htail hover
    exact (h (start + tail + 1) (Or.inr (by omega))).mp (Or.inl ⟨tail, htail, rfl⟩)
  · intro h b hout
    refine ⟨?_, fun hb => Or.inr (Or.inr hb)⟩
    rintro (⟨tail, htail, rfl⟩ | rfl | hb)
    · refine h tail htail ?_
      rcases hout with hlt | hge <;> omega
    · exfalso
      rcases hout with hlt | hge <;> omega
    · exact hb

/-! ## The protocol -/

/-- `begin_op` of `p`, when it is admitted at once. -/
def beginOp (p : Nat) : List GroupAction :=
  [.beginOp p, .advance p, .advance p, .advance p]

/-- The operation of `p` logs the `n` blocks from `b` on. -/
def logBlocks (p b n : Nat) : List GroupAction :=
  (List.range n).flatMap fun i => [.logWrite p (b + i), .advance p, .advance p, .advance p]

/-- `end_op` of `p`, when other operations are under way. -/
def endOp (p : Nat) : List GroupAction :=
  [.endOp p, .advance p, .advance p, .advance p, .advance p, .advance p]

/-- `end_op` of `p`, the last operation, and its commit up to the end of the writes of `n`
blocks. -/
def endLast (p n : Nat) : List GroupAction :=
  .endOp p :: List.replicate (2 * n + 7) (.advance p)

/-- Two operations that log the blocks 40, 41, 42 and 42, 43. -/
def twoOperations : List GroupAction :=
  beginOp 0 ++ beginOp 1 ++ logBlocks 0 40 3 ++ logBlocks 1 42 2 ++ endOp 0 ++ endLast 1 4

/-- Three operations of ten blocks each.  When 28 blocks are logged, the processes 0 and 1 pass
the test of `log_write` one after the other, and then both record their last block. -/
def overfullLog : List GroupAction :=
  beginOp 0 ++ beginOp 1 ++ beginOp 2 ++
    logBlocks 0 100 9 ++ logBlocks 1 110 9 ++ logBlocks 2 120 10 ++
    [.logWrite 0 109, .logWrite 1 119] ++
    [.advance 0, .advance 0, .advance 0, .advance 1, .advance 1, .advance 1] ++
    endOp 0 ++ endOp 1 ++ endLast 2 30

end Xv6.Log
