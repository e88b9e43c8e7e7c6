import Xv6.Foundations.Mutex
import Xv6.Foundations.Runs

/-!
# Processes - Sleep-locks

`acquiresleep` and `releasesleep` of `sleeplock.c`, with the `sleep`, `wakeup` and
`kill` of `proc.c`.  Every `acquire`, every `release` and every access to the
shared fields in between is a step of its own, so `sleep` is split into taking
`ptable.lock`, giving up the sleep-lock's spinlock, and going to sleep.  An
interleaving is an arbitrary list of actions of any number of processes; a process
calls `releasesleep` only when it has the lock.

Main results:

- Theorem {lit}`LockInv.step`: every step of every process keeps the invariant.
- Theorem {lit}`sleeplock_exclusive`: one holder at a time, and nobody sleeps on a
  free lock.
-/

namespace Xv6.Proc.Sleeplock

open Foundations

/-! ## Program points and states -/

/-- Program point of a process. -/
inductive Pc
  /-- Does not have the lock. -/
  | idle
  /-- `acquiresleep`, or `sleep` at its end: about to acquire `lk->lk`. -/
  | acquireWant
  /-- `acquiresleep`: holds `lk->lk`, at the test of the loop. -/
  | acquireHeld
  /-- `sleep`: holds `lk->lk`, about to acquire `ptable.lock`. -/
  | sleepWant
  /-- `sleep`: holds both, about to release `lk->lk`. -/
  | sleepBoth
  /-- `sleep`: holds `ptable.lock`, about to set `SLEEPING` and switch away. -/
  | sleepMark
  /-- `SLEEPING` on channel `lk`. -/
  | asleep
  /-- `RUNNABLE` again, inside `sleep`. -/
  | woken
  /-- `sleep`: back from `sched` with `ptable.lock` held. -/
  | wokenHeld
  /-- `acquiresleep`: `locked` is set, about to release `lk->lk`. -/
  | acquireDone
  /-- Between `acquiresleep` and `releasesleep`. -/
  | holding
  /-- `releasesleep`: about to acquire `lk->lk`. -/
  | releaseWant
  /-- `releasesleep`: holds `lk->lk`. -/
  | releaseHeld
  /-- `wakeup(lk)`: holds `lk->lk`, about to acquire `ptable.lock`. -/
  | wakeWant
  /-- `wakeup(lk)`: holds both. -/
  | wakeBoth
  /-- `releasesleep`: about to release `lk->lk`. -/
  | wakeDone
  /-- `kill` of process `q`: about to acquire `ptable.lock`.  The caller has the
  sleep-lock or not. -/
  | killWant (has : Bool) (q : Nat)
  /-- `kill` of process `q`: holds `ptable.lock`. -/
  | killHeld (has : Bool) (q : Nat)
deriving DecidableEq

namespace Pc

/-- What `wakeup1(lk)` does to one process. -/
def wake : Pc → Pc
  | .asleep => .woken
  | k => k

/-- Where `kill` returns to. -/
def back : Bool → Pc
  | true => .holding
  | false => .idle

/-- Points between `acquire(&lk->lk)` and its release. -/
def holdsLk : Pc → Bool
  | .acquireHeld | .sleepWant | .sleepBoth | .acquireDone | .releaseHeld | .wakeWant
  | .wakeBoth | .wakeDone => true
  | _ => false

/-- Points between `acquire(&ptable.lock)` and its release. -/
def holdsPtable : Pc → Bool
  | .sleepBoth | .sleepMark | .wokenHeld | .wakeBoth | .killHeld _ _ => true
  | _ => false

/-- Points from setting `locked` to clearing it. -/
def owns : Pc → Bool
  | .acquireDone | .holding | .releaseWant | .releaseHeld => true
  | .killWant has _ | .killHeld has _ => has
  | _ => false

/-- Points of a process that decided to sleep and has not been woken. -/
def sleeps : Pc → Bool
  | .sleepWant | .sleepBoth | .sleepMark | .asleep => true
  | _ => false

/-- Points of `releasesleep` from clearing `locked` to the pass of `wakeup1`. -/
def wakes : Pc → Bool
  | .wakeWant | .wakeBoth => true
  | _ => false

end Pc

/-- The two spinlocks with their holders, `lk->locked`, the program points and the
`killed` flags. -/
structure LockState where
  lk : Option Nat
  ptable : Option Nat
  locked : Bool
  pc : Nat → Pc
  killed : Nat → Bool

/-- After `initsleeplock`. -/
def lockInit : LockState where
  lk := none
  ptable := none
  locked := false
  pc _ := .idle
  killed _ := false

/-- One action: a process enters one of the three functions, or takes the next step
inside one. -/
inductive LockAction
  | acquiresleep (p : Nat)
  | releasesleep (p : Nat)
  | kill (p q : Nat)
  | advance (p : Nat)
deriving DecidableEq

/-! ## Steps -/

namespace LockState

/-- Move `p` to the point `k`, with the given holders of the two spinlocks. -/
def move (s : LockState) (p : Nat) (k : Pc) (lk ptable : Option Nat) : LockState :=
  { s with pc := Function.update s.pc p k, lk := lk, ptable := ptable }

/-- `acquire(&lk->lk)`. -/
def acquireLk (s : LockState) (p : Nat) (k : Pc) : Option LockState :=
  if s.lk = none then some (s.move p k (some p) s.ptable) else none

/-- `release(&lk->lk)`. -/
def releaseLk (s : LockState) (p : Nat) (k : Pc) : LockState :=
  s.move p k none s.ptable

/-- `acquire(&ptable.lock)`. -/
def acquirePtable (s : LockState) (p : Nat) (k : Pc) : Option LockState :=
  if s.ptable = none then some (s.move p k s.lk (some p)) else none

/-- `release(&ptable.lock)`. -/
def releasePtable (s : LockState) (p : Nat) (k : Pc) : LockState :=
  s.move p k s.lk none

/-- A step without effect on the spinlocks. -/
def goto (s : LockState) (p : Nat) (k : Pc) : LockState :=
  s.move p k s.lk s.ptable

/-- `lk->locked = b`. -/
def setLocked (s : LockState) (b : Bool) : LockState :=
  { s with locked := b }

/-- `wakeup1(lk)`. -/
def wakeup1 (s : LockState) : LockState :=
  { s with pc := fun q => (s.pc q).wake }

/-- The part of `kill` under the lock, when it has found process `q`. -/
def kill1 (s : LockState) (q : Nat) : LockState :=
  { s with killed := Function.update s.killed q true,
           pc := Function.update s.pc q (s.pc q).wake }

/-- The next step of `p` inside a function. -/
def advance (s : LockState) (p : Nat) : Pc → Option LockState
  | .idle | .asleep | .holding => none
  | .acquireWant => s.acquireLk p .acquireHeld
  | .acquireHeld =>
    if s.locked then some (s.goto p .sleepWant)
    else some ((s.setLocked true).goto p .acquireDone)
  | .sleepWant => s.acquirePtable p .sleepBoth
  | .sleepBoth => some (s.releaseLk p .sleepMark)
  | .sleepMark => some (s.releasePtable p .asleep)
  | .woken => s.acquirePtable p .wokenHeld
  | .wokenHeld => some (s.releasePtable p .acquireWant)
  | .acquireDone => some (s.releaseLk p .holding)
  | .releaseWant => s.acquireLk p .releaseHeld
  | .releaseHeld => some ((s.setLocked false).goto p .wakeWant)
  | .wakeWant => s.acquirePtable p .wakeBoth
  | .wakeBoth => some (s.wakeup1.releasePtable p .wakeDone)
  | .wakeDone => some (s.releaseLk p .idle)
  | .killWant has q => s.acquirePtable p (.killHeld has q)
  | .killHeld has q => some ((s.kill1 q).releasePtable p (Pc.back has))

end LockState

/-- One step of the system. -/
def lockStep (s : LockState) : LockAction → Option LockState
  | .acquiresleep p => if s.pc p = .idle then some (s.goto p .acquireWant) else none
  | .releasesleep p => if s.pc p = .holding then some (s.goto p .releaseWant) else none
  | .kill p q =>
    if s.pc p = .idle then some (s.goto p (.killWant false q))
    else if s.pc p = .holding then some (s.goto p (.killWant true q))
    else none
  | .advance p => s.advance p (s.pc p)

/-! ## The invariant -/

namespace Pc

theorem wake_holdsLk (k : Pc) : k.wake.holdsLk = k.holdsLk := by
  cases k <;> rfl

theorem wake_holdsPtable (k : Pc) : k.wake.holdsPtable = k.holdsPtable := by
  cases k <;> rfl

theorem wake_owns (k : Pc) : k.wake.owns = k.owns := by
  cases k <;> rfl

theorem wake_wakes (k : Pc) : k.wake.wakes = k.wakes := by
  cases k <;> rfl

theorem sleeps_of_wake {k : Pc} (h : k.wake.sleeps = true) : k.sleeps = true := by
  cases k <;> first | rfl | cases h

theorem holdsLk_of_wakes {k : Pc} (h : k.wakes = true) : k.holdsLk = true := by
  cases k <;> first | rfl | cases h

/-- Who still sleeps after the pass holds a spinlock. -/
theorem holds_of_wake_sleeps {k : Pc} (h : k.wake.sleeps = true) :
    k.holdsLk = true ∨ k.holdsPtable = true := by
  cases k <;> first | decide | cases h

end Pc

/-- Both spinlocks have the holders they record, `locked` is set exactly while some
process has the sleep-lock, and whoever sleeps does so because it is set or is about
to be woken. -/
structure LockInv (s : LockState) : Prop where
  lkOwner : Owns Pc.holdsLk s.pc s.lk
  ptableOwner : Owns Pc.holdsPtable s.pc s.ptable
  owner : ∃ holder : Option Nat, Owns Pc.owns s.pc holder ∧ s.locked = holder.isSome
  sleepers : Attended Pc.sleeps Pc.wakes s.pc (s.locked = true)

theorem lockInit_inv : LockInv lockInit := by
  refine ⟨?_, ?_, ⟨none, ?_, rfl⟩, ?_⟩
  · intro p
    simp [lockInit, Pc.holdsLk]
  · intro p
    simp [lockInit, Pc.holdsPtable]
  · intro p
    simp [lockInit, Pc.owns]
  · intro p hp
    cases hp

namespace LockInv

variable {s t : LockState} {p : Nat} {j k : Pc}

/-- When `p` may go from `j` to `k` in a step that changes nothing but its point and
the spinlocks. -/
structure Enters (s : LockState) (j k : Pc) : Prop where
  owns : k.owns = j.owns
  sleeps : k.sleeps = true → j.sleeps = true ∨ s.locked = true
  wakes : j.wakes = true → k.wakes = true ∨ ∀ q, (s.pc q).sleeps = false

theorem move (h : LockInv s) {lk ptable : Option Nat} (hpc : s.pc p = j)
    (hlk : Owns Pc.holdsLk (Function.update s.pc p k) lk)
    (hptable : Owns Pc.holdsPtable (Function.update s.pc p k) ptable)
    (he : Enters s j k) : LockInv (s.move p k lk ptable) := by
  subst hpc
  rcases h.owner with ⟨holder, howner, hlocked⟩
  exact ⟨hlk, hptable, ⟨holder, howner.keep he.owns, hlocked⟩,
    h.sleepers.move he.sleeps Or.inl he.wakes⟩

theorem acquireLk (h : LockInv s) (hpc : s.pc p = j) (hst : s.acquireLk p k = some t)
    (hlk : k.holdsLk = true) (hptable : k.holdsPtable = j.holdsPtable)
    (he : Enters s j k) : LockInv t := by
  unfold LockState.acquireLk at hst
  split at hst
  · rename_i hfree
    cases hst
    have howner := h.lkOwner
    rw [hfree] at howner
    exact h.move hpc (howner.acquire hlk) (h.ptableOwner.keep (hpc ▸ hptable)) he
  · cases hst

theorem releaseLk (h : LockInv s) (hpc : s.pc p = j) (hp : j.holdsLk = true)
    (hlk : k.holdsLk = false) (hptable : k.holdsPtable = j.holdsPtable)
    (he : Enters s j k) : LockInv (s.releaseLk p k) :=
  h.move hpc (h.lkOwner.release (hpc ▸ hp) hlk) (h.ptableOwner.keep (hpc ▸ hptable)) he

theorem acquirePtable (h : LockInv s) (hpc : s.pc p = j)
    (hst : s.acquirePtable p k = some t) (hlk : k.holdsLk = j.holdsLk)
    (hptable : k.holdsPtable = true) (he : Enters s j k) : LockInv t := by
  unfold LockState.acquirePtable at hst
  split at hst
  · rename_i hfree
    cases hst
    have howner := h.ptableOwner
    rw [hfree] at howner
    exact h.move hpc (h.lkOwner.keep (hpc ▸ hlk)) (howner.acquire hptable) he
  · cases hst

theorem releasePtable (h : LockInv s) (hpc : s.pc p = j) (hp : j.holdsPtable = true)
    (hlk : k.holdsLk = j.holdsLk) (hptable : k.holdsPtable = false)
    (he : Enters s j k) : LockInv (s.releasePtable p k) :=
  h.move hpc (h.lkOwner.keep (hpc ▸ hlk)) (h.ptableOwner.release (hpc ▸ hp) hptable) he

theorem goto (h : LockInv s) (hpc : s.pc p = j) (hlk : k.holdsLk = j.holdsLk)
    (hptable : k.holdsPtable = j.holdsPtable) (he : Enters s j k) : LockInv (s.goto p k) :=
  h.move hpc (h.lkOwner.keep (hpc ▸ hlk)) (h.ptableOwner.keep (hpc ▸ hptable)) he

/-! ### Steps on the shared fields -/

/-- The loop of `acquiresleep` ends: nobody else has the lock. -/
theorem take (h : LockInv s) (hpc : s.pc p = .acquireHeld) (hfree : s.locked = false) :
    LockInv ((s.setLocked true).goto p .acquireDone) := by
  rcases h.owner with ⟨holder, howner, hlocked⟩
  have hnone : holder = none := by
    rw [hfree] at hlocked
    exact Option.isNone_iff_eq_none.mp (by simpa using hlocked)
  rw [hnone] at howner
  refine ⟨h.lkOwner.keep (by rw [hpc]; rfl), h.ptableOwner.keep (by rw [hpc]; rfl),
    ⟨some p, howner.acquire rfl, rfl⟩, ?_⟩
  intro q _
  exact Or.inl rfl

/-- `releasesleep` clears `locked`; it will wake the sleepers. -/
theorem give (h : LockInv s) (hpc : s.pc p = .releaseHeld) :
    LockInv ((s.setLocked false).goto p .wakeWant) := by
  rcases h.owner with ⟨holder, howner, _⟩
  have hp : (s.pc p).owns = true := by rw [hpc]; rfl
  refine ⟨h.lkOwner.keep (by rw [hpc]; rfl), h.ptableOwner.keep (by rw [hpc]; rfl),
    ⟨none, howner.release hp rfl, rfl⟩, ?_⟩
  intro q _
  exact Or.inr ⟨p, by simp [LockState.goto, LockState.move, Pc.wakes]⟩

/-- After the pass of `wakeup1` nobody sleeps: whoever was about to would hold one
of the two spinlocks that the waker holds. -/
theorem wakeup1_sleeps (h : LockInv s) (hpc : s.pc p = .wakeBoth) (q : Nat) :
    (s.wakeup1.pc q).sleeps = false := by
  cases hq : (s.wakeup1.pc q).sleeps with
  | false => rfl
  | true =>
    have hsame : q = p := by
      rcases Pc.holds_of_wake_sleeps hq with hlk | hptable
      · exact h.lkOwner.unique hlk (by rw [hpc]; rfl)
      · exact h.ptableOwner.unique hptable (by rw [hpc]; rfl)
    have hpoint : s.wakeup1.pc q = .wakeBoth := by
      rw [hsame, LockState.wakeup1]
      simp [hpc, Pc.wake]
    rw [hpoint] at hq
    cases hq

theorem wakeup1 (h : LockInv s) (hpc : s.pc p = .wakeBoth) : LockInv s.wakeup1 := by
  rcases h.owner with ⟨holder, howner, hlocked⟩
  refine ⟨h.lkOwner.map Pc.wake_holdsLk, h.ptableOwner.map Pc.wake_holdsPtable,
    ⟨holder, howner.map Pc.wake_owns, hlocked⟩, ?_⟩
  intro q hq
  rw [h.wakeup1_sleeps hpc q] at hq
  cases hq

/-- `kill` only wakes. -/
theorem kill1 (h : LockInv s) (q : Nat) : LockInv (s.kill1 q) := by
  rcases h.owner with ⟨holder, howner, hlocked⟩
  refine ⟨h.lkOwner.keep (Pc.wake_holdsLk _), h.ptableOwner.keep (Pc.wake_holdsPtable _),
    ⟨holder, howner.keep (Pc.wake_owns _), hlocked⟩, h.sleepers.move ?_ Or.inl ?_⟩
  · intro hsleeps
    exact Or.inl (Pc.sleeps_of_wake hsleeps)
  · intro hwakes
    exact Or.inl (by rwa [Pc.wake_wakes])

/-- One step inside a function keeps the invariant. -/
theorem advance (h : LockInv s) (hpc : s.pc p = j) (hst : s.advance p j = some t) :
    LockInv t := by
  cases j with
  | idle | asleep | holding => cases hst
  | acquireWant => exact h.acquireLk hpc hst rfl rfl ⟨rfl, nofun, nofun⟩
  | acquireHeld =>
    simp only [LockState.advance] at hst
    split at hst
    · rename_i hlocked
      cases hst
      exact h.goto hpc rfl rfl ⟨rfl, fun _ => Or.inr hlocked, nofun⟩
    · rename_i hfree
      cases hst
      exact h.take hpc (by simpa using hfree)
  | sleepWant => exact h.acquirePtable hpc hst rfl rfl ⟨rfl, fun _ => Or.inl rfl, nofun⟩
  | sleepBoth =>
    cases hst
    exact h.releaseLk hpc rfl rfl rfl ⟨rfl, fun _ => Or.inl rfl, nofun⟩
  | sleepMark =>
    cases hst
    exact h.releasePtable hpc rfl rfl rfl ⟨rfl, fun _ => Or.inl rfl, nofun⟩
  | woken => exact h.acquirePtable hpc hst rfl rfl ⟨rfl, nofun, nofun⟩
  | wokenHeld =>
    cases hst
    exact h.releasePtable hpc rfl rfl rfl ⟨rfl, nofun, nofun⟩
  | acquireDone | wakeDone =>
    cases hst
    exact h.releaseLk hpc rfl rfl rfl ⟨rfl, nofun, nofun⟩
  | releaseWant => exact h.acquireLk hpc hst rfl rfl ⟨rfl, nofun, nofun⟩
  | releaseHeld =>
    cases hst
    exact h.give hpc
  | wakeWant => exact h.acquirePtable hpc hst rfl rfl ⟨rfl, nofun, fun _ => Or.inl rfl⟩
  | wakeBoth =>
    cases hst
    have hpoint : s.wakeup1.pc p = .wakeBoth := by
      simp [LockState.wakeup1, hpc, Pc.wake]
    exact (h.wakeup1 hpc).releasePtable hpoint rfl rfl rfl
      ⟨rfl, nofun, fun _ => Or.inr (h.wakeup1_sleeps hpc)⟩
  | killWant has q => exact h.acquirePtable hpc hst rfl rfl ⟨rfl, nofun, nofun⟩
  | killHeld has q =>
    cases hst
    have hpoint : (s.kill1 q).pc p = .killHeld has q := by
      by_cases hpq : p = q
      · subst hpq
        simp [LockState.kill1, hpc, Pc.wake]
      · simp [LockState.kill1, hpq, hpc]
    cases has with
    | true | false => exact (h.kill1 q).releasePtable hpoint rfl rfl rfl ⟨rfl, nofun, nofun⟩

/-- Every step of every process keeps the invariant. -/
theorem step (a : LockAction) (h : LockInv s) (hst : lockStep s a = some t) : LockInv t := by
  cases a with
  | acquiresleep p | releasesleep p =>
    simp only [lockStep] at hst
    split at hst
    · rename_i hpc
      cases hst
      exact h.goto hpc rfl rfl ⟨rfl, nofun, nofun⟩
    · cases hst
  | kill p q =>
    simp only [lockStep] at hst
    split at hst
    · rename_i hpc
      cases hst
      exact h.goto hpc rfl rfl ⟨rfl, nofun, nofun⟩
    · split at hst
      · rename_i hpc
        cases hst
        exact h.goto hpc rfl rfl ⟨rfl, nofun, nofun⟩
      · cases hst
  | advance p => exact h.advance rfl hst

end LockInv

/-! ## The lock -/

/-- In every state reached by any interleaving of any processes: at most one of
them is between setting and clearing `locked`, hence between `acquiresleep` and
`releasesleep`; and when both spinlocks are free and `locked` is clear, nobody
sleeps on the lock. -/
theorem sleeplock_exclusive (as : List LockAction) (s : LockState)
    (hrun : runFrom lockStep lockInit as = some s) :
    (∀ p q, (s.pc p).owns = true → (s.pc q).owns = true → p = q) ∧
      ¬(s.lk = none ∧ s.ptable = none ∧ s.locked = false ∧ ∃ p, s.pc p = .asleep) := by
  have h : LockInv s := runFrom_invariant (fun _ a _ hs hst => hs.step a hst) lockInit_inv hrun
  constructor
  · intro p q hp hq
    rcases h.owner with ⟨holder, howner, _⟩
    exact howner.unique hp hq
  · rintro ⟨hlk, _, hfree, p, hp⟩
    rcases h.sleepers p (by rw [hp]; rfl) with hlocked | ⟨q, hq⟩
    · rw [hfree] at hlocked
      cases hlocked
    · have howner := h.lkOwner
      rw [hlk] at howner
      have hout := howner.free q
      rw [Pc.holdsLk_of_wakes hq] at hout
      cases hout

/-- Process 0 takes the lock, process 1 falls asleep on it, process 0 releases it. -/
def handOver : List LockAction :=
  [.acquiresleep 0, .advance 0, .advance 0, .advance 0, .acquiresleep 1, .advance 1, .advance 1,
    .advance 1, .advance 1, .releasesleep 0, .advance 1, .advance 0, .advance 0, .advance 0,
    .advance 0, .advance 0]

/-- The sleeper of this run is woken. -/
theorem sleeplock_exclusive_handOver :
    ∃ s, runFrom lockStep lockInit handOver = some s ∧ s.pc 1 = .woken ∧
      ¬(s.lk = none ∧ s.ptable = none ∧ s.locked = false ∧ ∃ p, s.pc p = .asleep) :=
  ⟨_, rfl, rfl, (sleeplock_exclusive handOver _ rfl).2⟩

end Xv6.Proc.Sleeplock
