import Xv6.Foundations.Runs
import Xv6.Params

/-!
# Processes - The process table

The functions of `proc.c` that change the process table: `allocproc`, `userinit`,
`fork`, `exit`, `wait`, `kill`, `sleep`, `wakeup`, `yield`, the scheduler, and
`startkth` and `exitkth` of the kernel threads.  A step is one section that runs
with `ptable.lock` held, or one of the assignments that `fork`, `userinit` and
`startkth` make without it; an interleaving is a list of such steps.

The table has `n` entries for any `n`.  Of an entry the fields are kept that these
functions read.  Two more fields are not in the source: the program point of the
process, and the number {lit}`birth` that `allocproc` gives it, which unlike the pid is
never used again.  The lists {lit}`exited` and {lit}`reaped` are a history that no
step reads.

Main definitions:

- {lit}`Slot`, {lit}`Table`: entries and the table.
- {lit}`exit`, {lit}`wait`, {lit}`kill`, {lit}`schedule`: sections under the lock.
- {lit}`TableAction`, {lit}`tableStep`: the steps.
-/

namespace Xv6.Proc

open Foundations

/-! ## Entries -/

/-- `enum procstate`. -/
inductive ProcState
  | unused
  | embryo
  | sleeping
  | runnable
  | running
  | zombie
  | kzombie
deriving DecidableEq

/-- Channels: a process sleeps in `wait` on its own entry; all others are addresses
outside of the table. -/
inductive Chan (n : Nat)
  | proc (i : Fin n)
  | other (k : Nat)
deriving DecidableEq

/-- Program point of a process, as far as the table depends on it. -/
inductive Pc (n : Nat)
  /-- Not in one of the functions below. -/
  | run
  /-- In `fork`: `allocproc` returned `c`. -/
  | forking (c : Fin n)
  /-- In `fork`: `c->parent` is set, `c->state` is about to be. -/
  | forked (c : Fin n)
  /-- In `wait`, in the call of `sleep`. -/
  | inWait
  /-- An `EMBRYO` of a `fork` by `i`. -/
  | childOf (i : Fin n)
  /-- The `EMBRYO` of `userinit`. -/
  | first
  /-- An `EMBRYO` of `startkth`. -/
  | kthread
deriving DecidableEq

/-- `struct proc`. -/
structure Slot (n : Nat) where
  state : ProcState
  pid : Int32
  parent : Option (Fin n)
  chan : Option (Chan n)
  killed : Bool
  isProcess : Bool
  pc : Pc n
  birth : Nat

/-- `ptable`, `nextpid` and `initproc`, with the number of entries given out and the
history of `exit` and `wait`. -/
structure Table (n : Nat) where
  slot : Fin n → Slot n
  nextpid : Int32
  initproc : Option (Fin n)
  births : Nat
  exited : List Nat
  reaped : List (Fin n × Nat)

/-- A zeroed entry. -/
def Slot.zero (n : Nat) : Slot n :=
  ⟨.unused, 0, none, none, false, false, .run, 0⟩

/-- The table at the start. -/
def tableInit (n : Nat) : Table n where
  slot _ := Slot.zero n
  nextpid := 1
  initproc := none
  births := 0
  exited := []
  reaped := []

/-! ## Sections under the lock -/

namespace Table

variable {n : Nat}

/-- Change one entry. -/
def set (s : Table n) (i : Fin n) (x : Slot n) : Table n :=
  { s with slot := Function.update s.slot i x }

/-- The first entry that satisfies a test. -/
def find (s : Table n) (test : Slot n → Bool) : Option (Fin n) :=
  (List.finRange n).find? fun i => test (s.slot i)

/-- The loop of `allocproc` and `startkth`. -/
def unused (s : Table n) : Option (Fin n) :=
  s.find fun x => x.state = .unused

/-- `allocproc` and the start of `startkth`, on the entry `c` that was found. -/
def alloc (s : Table n) (c : Fin n) (pc : Pc n) : Table n :=
  { s with
    slot := Function.update s.slot c
      { s.slot c with
        state := .embryo, pid := s.nextpid, isProcess := true, pc := pc, birth := s.births }
    nextpid := s.nextpid + 1
    births := s.births + 1 }

/-- What `wakeup1(chan)` does to one entry. -/
def wake1 (chan : Chan n) (x : Slot n) : Slot n :=
  if x.state = .sleeping ∧ x.chan = some chan then { x with state := .runnable } else x

/-- `wakeup1`. -/
def wakeup1 (s : Table n) (chan : Chan n) : Table n :=
  { s with slot := fun i => wake1 chan (s.slot i) }

/-- `wakeup1` of an entry of the table, which may be null. -/
def wakeupProc (s : Table n) (i : Option (Fin n)) : Table n :=
  match i with
  | none => s
  | some i => s.wakeup1 (.proc i)

/-- The loop of `exit` that passes the children of `i` to `init`. -/
def reparent (s : Table n) (i : Fin n) : Table n :=
  { s with slot := fun c =>
      if (s.slot c).parent = some i then { s.slot c with parent := s.initproc }
      else s.slot c }

/-- Some child of `i` is a zombie. -/
def hasZombie (s : Table n) (i : Fin n) : Bool :=
  (List.finRange n).any fun c =>
    (s.slot c).parent = some i ∧ (s.slot c).state = .zombie

/-- The part of `exit` under the lock: wake the parent, pass the children to `init`,
which is woken when one of them is a zombie, and become a zombie. -/
def exit (s : Table n) (i : Fin n) : Table n :=
  let woken := s.wakeupProc (s.slot i).parent
  let passed := if woken.hasZombie i then (woken.reparent i).wakeupProc s.initproc
    else woken.reparent i
  { passed.set i { passed.slot i with state := .zombie } with
    exited := (s.slot i).birth :: s.exited }

/-- The zombie that the loop of `wait` finds. -/
def zombieChild (s : Table n) (i : Fin n) : Option (Fin n) :=
  s.find fun x => x.parent = some i ∧ x.state = .zombie

/-- `havekids`. -/
def haveKids (s : Table n) (i : Fin n) : Bool :=
  (List.finRange n).any fun c => (s.slot c).parent = some i

/-- `wait` frees the entry of the zombie `c`. -/
def reap (s : Table n) (i c : Fin n) : Table n :=
  { s.set c { s.slot c with pid := 0, parent := none, killed := false, state := .unused } with
    reaped := (i, (s.slot c).birth) :: s.reaped }

/-- `i` goes on running outside of `wait`. -/
def resume (s : Table n) (i : Fin n) : Table n :=
  s.set i { s.slot i with state := .running, chan := none, pc := .run }

/-- One round of `wait` by `i`, up to its return or to the switch to the scheduler. -/
def waitScan (s : Table n) (i : Fin n) : Table n :=
  match s.zombieChild i with
  | some c => (s.reap i c).resume i
  | none =>
    if s.haveKids i = false ∨ (s.slot i).killed = true then s.resume i
    else s.set i { s.slot i with state := .sleeping, chan := some (.proc i), pc := .inWait }

/-- `kill`: its result, and the table. -/
def kill (s : Table n) (pid : Int32) : Int × Table n :=
  match s.find fun x => x.pid = pid with
  | none => (-1, s)
  | some i =>
    (0, s.set i { s.slot i with
      killed := true,
      state := if (s.slot i).state = .sleeping then .runnable else (s.slot i).state })

/-- The scheduler switches to `i`, which clears its channel when it comes from
`sleep`, and scans again when it comes from `wait`. -/
def schedule (s : Table n) (i : Fin n) : Table n :=
  if (s.slot i).pc = .inWait then s.waitScan i
  else s.set i { s.slot i with state := .running, chan := none }

end Table

/-! ## Steps -/

/-- A step of the boot processor, of process `i`, or of the scheduler.  `fork` is
split into `allocproc`, which may fail later, the assignment of the parent and that
of the state. -/
inductive TableAction (n : Nat)
  | userinit
  | userinitDone (c : Fin n)
  | startkth
  | startkthFail (c : Fin n)
  | startkthDone (c : Fin n)
  | exitkth (i : Fin n)
  | fork (i : Fin n)
  | forkFail (i : Fin n)
  | forkParent (i : Fin n)
  | forkDone (i : Fin n)
  | exit (i : Fin n)
  | wait (i : Fin n)
  | kill (pid : Int32)
  | sleep (i : Fin n) (k : Nat)
  | wakeup (k : Nat)
  | yield (i : Fin n)
  | schedule (i : Fin n)
deriving DecidableEq

namespace Table

variable {n : Nat}

/-- `i` runs, outside of the functions that take several steps. -/
def Runs (s : Table n) (i : Fin n) : Prop :=
  (s.slot i).state = .running ∧ (s.slot i).pc = .run

instance (s : Table n) (i : Fin n) : Decidable (s.Runs i) :=
  inferInstanceAs (Decidable (_ ∧ _))

/-- A regular process runs. -/
def RunsProcess (s : Table n) (i : Fin n) : Prop :=
  s.Runs i ∧ (s.slot i).isProcess = true

instance (s : Table n) (i : Fin n) : Decidable (s.RunsProcess i) :=
  inferInstanceAs (Decidable (_ ∧ _))

/-- `i` goes to the program point `pc`. -/
def goto (s : Table n) (i : Fin n) (pc : Pc n) : Table n :=
  s.set i { s.slot i with pc := pc }

/-- An `EMBRYO` becomes `RUNNABLE`. -/
def start (s : Table n) (c : Fin n) (isProcess : Bool) : Table n :=
  s.set c { s.slot c with state := .runnable, isProcess := isProcess, pc := .run }

/-- `p->state = UNUSED` after `kalloc` or `copyuvm` failed. -/
def drop (s : Table n) (c : Fin n) : Table n :=
  s.set c { s.slot c with state := .unused }

/-- The child of a running `fork` by `i`, before its parent is set. -/
def forkingChild (s : Table n) (i : Fin n) : Option (Fin n) :=
  match (s.slot i).state, (s.slot i).pc with
  | .running, .forking c => some c
  | _, _ => none

/-- The child of a running `fork` by `i`, after its parent was set. -/
def forkedChild (s : Table n) (i : Fin n) : Option (Fin n) :=
  match (s.slot i).state, (s.slot i).pc with
  | .running, .forked c => some c
  | _, _ => none

end Table

/-- One step; a call of `exit` by `init` panics and is no step. -/
def tableStep {n : Nat} (s : Table n) : TableAction n → Option (Table n)
  | .userinit =>
    if s.initproc = none then
      s.unused.map fun c => { s.alloc c .first with initproc := some c }
    else none
  | .userinitDone c =>
    if (s.slot c).state = .embryo ∧ (s.slot c).pc = .first then some (s.start c true)
    else none
  | .startkth => s.unused.map fun c => s.alloc c .kthread
  | .startkthFail c =>
    if (s.slot c).state = .embryo ∧ (s.slot c).pc = .kthread then some (s.drop c)
    else none
  | .startkthDone c =>
    if (s.slot c).state = .embryo ∧ (s.slot c).pc = .kthread then some (s.start c false)
    else none
  | .exitkth i =>
    if s.Runs i ∧ (s.slot i).isProcess = false then
      some (s.set i { s.slot i with pid := 0, state := .unused })
    else none
  | .fork i =>
    if s.RunsProcess i then
      s.unused.map fun c => (s.alloc c (.childOf i)).goto i (.forking c)
    else none
  | .forkFail i => (s.forkingChild i).map fun c => (s.drop c).goto i .run
  | .forkParent i => (s.forkingChild i).map fun c =>
    (s.set c { s.slot c with parent := some i }).goto i (.forked c)
  | .forkDone i => (s.forkedChild i).map fun c =>
    (s.start c (s.slot c).isProcess).goto i .run
  | .exit i =>
    if s.RunsProcess i ∧ s.initproc ≠ some i then some (s.exit i) else none
  | .wait i => if s.RunsProcess i then some (s.waitScan i) else none
  | .kill pid => some (s.kill pid).2
  | .sleep i k =>
    if s.Runs i then
      some (s.set i { s.slot i with state := .sleeping, chan := some (.other k) })
    else none
  | .wakeup k => some (s.wakeup1 (.other k))
  | .yield i =>
    if (s.slot i).state = .running then
      some (s.set i { s.slot i with state := .runnable })
    else none
  | .schedule i => if (s.slot i).state = .runnable then some (s.schedule i) else none

end Xv6.Proc
